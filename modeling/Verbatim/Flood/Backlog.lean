import Verbatim.Flood.Items

namespace Verbatim.Flood

open Verbatim.Terminal

def pushSkipped (waiting : List Waiting) (skipped : Skipped) : List Waiting :=
  match waiting.getLast? with
  | some (.skipped last) => waiting.dropLast++[.skipped (last.plus skipped)]
  | _ => waiting++[.skipped skipped]

def pushAdded (waiting : List Waiting) : Waiting → List Waiting
  | .skipped skipped => pushSkipped waiting skipped
  | item => waiting++[item]

/-- What is being dropped: the lines still to drop, the count of what was, and whether the last
item dropped was a line, whose growth goes with it. -/
structure Dropping where
  left : Nat
  skipped : Option Skipped
  inLine : Bool
  deriving DecidableEq

namespace Dropping

def drops (d : Dropping) (item : Waiting) : Bool :=
  match item with
  | .skipped _ => true
  | item => if belongs item then d.inLine || decide (0<d.left) else decide (0<d.left)

/-- Counts an item dropped; a line's growth and its cut note go with it. -/
def drop (d : Dropping) : Waiting → Dropping
  | .line _ (.line counted) => ⟨d.left-1,some (withLine d.skipped counted),true⟩
  | .skipped count =>
      {d with
        skipped := some (match d.skipped with
          | none => count
          | some skipped => skipped.plus count)
        inLine := false}
  | _ => d

def run : Dropping → List Waiting → Dropping × List Waiting
  | d,[] => (d,[])
  | d,item::rest => if d.drops item then run (d.drop item) rest else (d,item::rest)

end Dropping

/-- The one count left in the place of what was dropped: none when no line was counted. -/
def countLeft : Option Skipped → List Waiting
  | none => []
  | some skipped => if skipped=.count 0 then [] else [.skipped skipped]

/-- The waiting queue rebuilt in order while the backlog is over its bound: the group being
spoken is kept, then what is dropped counted in its place, then the rest kept. -/
structure Bounded where
  groupLeft : Option Nat
  skipping : Bool
  dropping : Dropping
  deriving DecidableEq

namespace Bounded

variable (b : Bounded) (waiting : List Waiting)

def ended : Bounded × List Waiting :=
  if b.skipping then
    ({b with skipping := false, dropping.skipped := none},waiting++countLeft b.dropping.skipped)
  else (b,waiting)

def addBehind (item : Waiting) : Bounded × List Waiting :=
  if b.skipping then
    if b.dropping.drops item then ({b with dropping := b.dropping.drop item},waiting)
    else ((b.ended waiting).1,(b.ended waiting).2++[item])
  else (b,waiting++[item])

def add (item : Waiting) : Bounded × List Waiting :=
  match b.groupLeft with
  | some (left+1) =>
      ({b with groupLeft := some (if isLine item then left else left+1)},waiting++[item])
  | some 0 =>
      if belongs item then (b,waiting++[item])
      else {b with groupLeft := none, skipping := true}.addBehind waiting item
  | none => b.addBehind waiting item

end Bounded

/-- The items going round, the one before the next held until the next is known. -/
structure Adding where
  held : Option Waiting
  bounded : Bounded
  waiting : List Waiting

namespace Adding

variable (a : Adding)

def flushed : Bounded × List Waiting :=
  match a.held with
  | none => (a.bounded,a.waiting)
  | some before => a.bounded.add a.waiting before

def put (item : Waiting) : Adding := ⟨some item,a.flushed.1,a.flushed.2⟩

def merge (item : Waiting) : Adding :=
  match item,a.held with
  | .skipped skipped,some (.skipped last) => {a with held := some (.skipped (last.plus skipped))}
  | item,_ => a.put item

def ended : List Waiting := (a.flushed.1.ended a.flushed.2).2

end Adding

def isNewLine : SaidItem → Bool
  | .item (.output _) => true
  | .line _ => true
  | _ => false

/-- The waiting output with the items' added: the backlog behind the group is kept to as many
lines as either limit could keep, older ones counted as skipped. -/
def queue (graphemes : Graphemes) (full last : Nat) (group : Option Nat)
    (waiting : List Waiting) (items : List SaidItem) : List Waiting :=
  let keep := max full last
  let groupLeft := group.getD 0
  let backlog := waitingLines waiting+(items.filter isNewLine).length-groupLeft
  let new := added graphemes items .exactly
  if backlog≤keep then new.foldl pushAdded waiting
  else
    let bounded : Bounded :=
      ⟨if 0<groupLeft then some groupLeft else none,decide (groupLeft=0),backlog-keep,none,false⟩
    (new.foldl Adding.merge (waiting.foldl Adding.put ⟨none,bounded,[]⟩)).ended

/-- Where the backlog starts: past the lines the group still hands on and what belongs to the
last of them. -/
def backlogStart : List Waiting → Nat → Nat
  | _,0 => 0
  | [],_ => 0
  | item::rest,left+1 =>
      if isLine item then
        if left=0 then 1+(rest.takeWhile belongs).length else 1+backlogStart rest left
      else 1+backlogStart rest (left+1)

/-- Replaces everything from `start` on but its newest `keep` lines with one skipped count. -/
def skipAllBut (waiting : List Waiting) (start keep : Nat) : List Waiting :=
  let (dropping,rest) :=
    Dropping.run ⟨waitingLines (waiting.drop start)-keep,none,false⟩ (waiting.drop start)
  waiting.take start++countLeft dropping.skipped++rest

/-- The first line or growth of the backlog, or else of the group. -/
def oldestText (waiting : List Waiting) (start : Nat) : Option Nat :=
  match (waiting.drop start).findIdx? hasText with
  | some index => some (start+index)
  | none => (waiting.take start).findIdx? hasText

/-- What waits once the line at `index` joined the count before it, with what belongs to it; a
growth whose line is gone is dropped alone. -/
def joinCount (waiting : List Waiting) (index : Nat) : List Waiting :=
  match waiting[index]? with
  | some (.line _ (.line counted)) =>
      let rest := (waiting.drop (index+1)).dropWhile belongs
      match (waiting.take index).getLast? with
      | some (.skipped count) =>
          (waiting.take index).dropLast++.skipped (withLine (some count) counted)::rest
      | _ => waiting.take index++.skipped (withLine none counted)::rest
  | _ => waiting.take index++waiting.drop (index+1)

/-- Keeps everything waiting within its bytes: the oldest lines join the skipped count, the
backlog's first, then the group's. Each turn takes a line or a growth away. -/
def boundLoop : Nat → List Waiting → Option Nat → List Waiting × Option Nat
  | 0,waiting,group => (waiting,group)
  | fuel+1,waiting,group =>
      if waitingBytes waiting ≤ maxWaitingBytes then (waiting,group)
      else
        let start := backlogStart waiting (group.getD 0)
        match oldestText waiting start with
        | none => (waiting,group)
        | some index =>
            boundLoop fuel (joinCount waiting index)
              (if index<start then group.map (·-1) else group)

def bound (waiting : List Waiting) (group : Option Nat) : List Waiting × Option Nat :=
  boundLoop waiting.length waiting group

/-- A lost read's "more than" count of none. -/
def isMark (item : Waiting) : Bool := item=.skipped (.moreThan 0)

/-- One more item among the lines and the counts; a mark counts no line. -/
def tally (tallied : Nat × Skipped) (item : Waiting) : Nat × Skipped :=
  if isMark item then tallied
  else match item with
    | .skipped count => (tallied.1,tallied.2.plus count)
    | item => if isLine item then (tallied.1+1,tallied.2) else tallied

def skips (waiting : List Waiting) (start full : Nat) : Bool :=
  let (lines,skipped) := (waiting.drop start).foldl tally (0,.count 0)
  match skipped with
  | .count count => full<lines+count
  | _ => true

/-- Once the group is heard the policy skips the backlog's first item, and it says "more
than". -/
def skipSaysMoreThan (waiting : List Waiting) (groupLeft full last : Nat) : Bool :=
  let start := backlogStart waiting groupLeft
  match waiting[start]? with
  | some (.skipped (.moreThan _)) => skips waiting start full
  | some (.line _ (.line .moreThan)) =>
      skips waiting start full && decide (last<waitingLines (waiting.drop start))
  | _ => false

end Verbatim.Flood
