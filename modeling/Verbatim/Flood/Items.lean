import Verbatim.Terminal.Text

namespace Verbatim.Flood

open Verbatim.Terminal

def addCounts (a b : Nat) : Nat := min (a+b) (2^32-1)

/-- How many lines went by unread. -/
inductive Skipped where
  | count (lines : Nat)
  | uncounted
  | moreThan (lines : Nat)
  | about (lines : Nat)
  deriving DecidableEq

/-- This count followed by the newer one. A newer "more than" stands for everything before it. -/
def Skipped.plus : Skipped → Skipped → Skipped
  | .count a,.count b => .count (addCounts a b)
  | _,.moreThan b => .moreThan b
  | .moreThan a,.count b => .moreThan (addCounts a b)
  | .moreThan a,.about b => .moreThan (addCounts a b)
  | .about a,.about b => .about (addCounts a b)
  | .count a,.about b => .about (addCounts a b)
  | .about a,.count b => .about (addCounts a b)
  | _,.uncounted => .uncounted
  | .uncounted,_ => .uncounted

/-- The unit a key's answer at the caret is spoken in. -/
inductive TerminalUnit where
  | character
  | word
  | line
  deriving DecidableEq

inductive TerminalItem where
  | output (text : Text)
  | growth (text : Text)
  | skipped (lines : Skipped)
  | echo (text : Text)
  | caret (unit : TerminalUnit) (text : Text)
  | gained (text : Text)
  | lost (text : Text)
  | answer (text : Text)
  | suggestion (text : Text)
  deriving DecidableEq

/-- Output is queued by the flood policy; anything else is a key's answer, spoken at once. -/
def TerminalItem.isOutput : TerminalItem → Bool
  | .output _ => true
  | .growth _ => true
  | .skipped _ => true
  | _ => false

/-- A new line of output comes with the reading rules' text, anything else as an item. -/
inductive SaidItem where
  | item (item : TerminalItem)
  | line (text : Text)
  deriving DecidableEq

def SaidItem.isOutput : SaidItem → Bool
  | .item said => said.isOutput
  | .line _ => true

/-- How a skipped count that takes a line counts it. -/
inductive Counted where
  | exactly
  | about
  | moreThan
  deriving DecidableEq

/-- What a waiting line is to a skipped count: a growth counts with the line it follows. -/
inductive LineKind where
  | line (counted : Counted)
  | growth
  deriving DecidableEq

/-- One piece of output waiting to be spoken; `cut` says that the line before it was cut. -/
inductive Waiting where
  | line (text : Text) (kind : LineKind)
  | skipped (lines : Skipped)
  | cut
  deriving DecidableEq

def isLine : Waiting → Bool
  | .line _ (.line _) => true
  | _ => false

def belongs : Waiting → Bool
  | .line _ .growth => true
  | .cut => true
  | _ => false

def hasText : Waiting → Bool
  | .line _ _ => true
  | _ => false

def waitingLines (waiting : List Waiting) : Nat := (waiting.filter isLine).length

/-- The count of lines being skipped with one more line, counted as it says. -/
def withLine (skipped : Option Skipped) (counted : Counted) : Skipped :=
  match skipped,counted with
  | some (.moreThan more),_ => (Skipped.moreThan more).plus (.count 1)
  | skipped,.moreThan => (skipped.getD (.count 0)).plus (.moreThan 1)
  | none,.about => .about 1
  | some skipped,.about => skipped.plus (.about 1)
  | none,.exactly => .count 1
  | some skipped,.exactly => skipped.plus (.count 1)

def maxWaitingBytes : Nat := 10*1024*1024

def waitingBytes (waiting : List Waiting) : Nat :=
  (waiting.map (fun item => match item with
    | .line text _ => text.bytes
    | _ => 0)).sum

def isSpace (c : Char) : Bool := isWhitespace c || c = '\u200b' || c = '\ufeff'

def isBlank (text : Text) : Bool := text.all isSpace

/-- The grapheme clusters kept from the front while they end within `bytes`. -/
def graphemesWithin : List Text → Nat → Text
  | [],_ => []
  | grapheme::rest,bytes =>
      if grapheme.bytes≤bytes then grapheme++graphemesWithin rest (bytes-grapheme.bytes)
      else []

/-- Splits a text into its grapheme clusters. -/
abbrev Graphemes := Text → List Text

section Bound

variable (graphemes : Graphemes)

/-- The line cut to the bound on a grapheme boundary, and whether it was. -/
def withinBound (line : Text) : Text × Bool :=
  if line.bytes ≤ maxWaitingBytes then (line,false)
  else (graphemesWithin (graphemes line) maxWaitingBytes,true)

def lineAdded (line : Text) (kind : LineKind) : List Waiting :=
  let (line,cut) := withinBound graphemes line
  if cut then [.line line kind,.cut] else [.line line kind]

/-- What waits of the output among the items, in order: a lost read's lines keep its kind. -/
def added : List SaidItem → Counted → List Waiting
  | [],_ => []
  | .line text::rest,counted => lineAdded graphemes text (.line counted)++added rest counted
  | .item (.output text)::rest,counted =>
      lineAdded graphemes text (.line counted)++added rest counted
  | .item (.growth text)::rest,counted =>
      lineAdded graphemes text .growth++added rest counted
  | .item (.skipped (.about 0))::rest,_ => added rest .about
  | .item (.skipped (.moreThan 0))::rest,_ => .skipped (.moreThan 0)::added rest .moreThan
  | .item (.skipped skipped)::rest,counted => .skipped skipped::added rest counted
  | .item _::rest,counted => added rest counted

end Bound

end Verbatim.Flood
