import Verbatim.Terminal.Rows
import Verbatim.Terminal.Align

namespace Verbatim.Terminal

def lingeringMs : Nat := 2000

/-- A remembered place: its row is counted from the last read's first row. -/
structure Anchor where
  row : Int
  column : Nat
  lineHash : Nat
  deriving DecidableEq

inductive NewRow where
  | new
  | kept (source : Nat) (moved : Bool)
  | grown (source : Nat)
  | rewritten (source : Nat) (moved alone : Bool)
  | returned (moved : Bool)
  | shown
  deriving DecidableEq

def NewRow.shifted (skipped : Nat) : NewRow → NewRow
  | .kept source moved => .kept (source+skipped) moved
  | .grown source => .grown (source+skipped)
  | .rewritten source moved alone => .rewritten (source+skipped) moved alone
  | kind => kind

inductive OldRow where
  | kept (target : Nat)
  | rewritten (target : Nat)
  | gone (lingering : Bool)
  | above
  | left
  deriving DecidableEq

inductive Switch where
  | none
  | new
  deriving DecidableEq

/-- A line of a read: its rows, from the first to before the last, joined. -/
structure Line where
  start : Nat
  stop : Nat
  text : Text
  hash : Nat
  grewFrom : Option Nat
  deriving DecidableEq

/-- How the lines of a lost read that went by are counted. -/
inductive Lost where
  | about
  | moreThan
  | uncounted
  deriving DecidableEq

structure Outcome where
  wholeDocument : Bool := false
  historyBlock : Bool := false
  first : Bool := false
  blank : Bool := false
  rows : List NewRow := []
  old : List OldRow := []
  lines : List Line := []
  rotation : Nat := 0
  lost : Option Lost := none
  byText : Bool := false
  rewritten : Bool := false
  switch : Switch := .none
  caret : Option Nat := none
  continued : Bool := false
  width : Nat := 0
  height : Nat := 0
  deriving DecidableEq

/-- A gone row kept for a while, and where it would be now had it stayed. -/
structure Lingering where
  row : Row
  sinceMs : Nat
  place : Int
  deriving DecidableEq

def Lingering.shifted (gone : Lingering) (shift : Int) : Lingering :=
  {gone with place := gone.place+shift}

/-- One screen's memory: the last read's rows from `skipped` on. -/
structure Screen where
  rows : List Row
  skipped : Nat := 0
  width : Nat
  height : Nat
  next : Nat
  atDocumentStart : Bool
  caret : Option Nat
  caretColumn : Nat
  showsText : Bool
  lingering : List Lingering := []
  review : Option Anchor := none
  marks : List Anchor := []
  newestMark : Option Anchor := none
  places : List (Nat × Anchor) := []
  continued : Bool := false
  deriving DecidableEq

def firstMin {α : Type} (key : α → Nat) : List α → Option α
  | [] => none
  | item::items =>
      match firstMin key items with
      | none => some item
      | some other => if key other<key item then some other else some item

def anchorAt (rows : List Row) (row column : Nat) : Option Anchor :=
  rows[row]?.map fun found => ⟨row,min column found.text.length,found.lineHash⟩

/-- The row and column of character `column` of a line from row `row` on. -/
def alongLine (rows : List Row) : Nat → Nat → Nat → Nat × Nat
  | 0,row,column => (row,column)
  | fuel+1,row,column =>
      match rows[row]? with
      | none => (row,column)
      | some found =>
          if found.wraps ∧ row+1<rows.length ∧ found.text.length≤column then
            alongLine rows fuel (row+1) (column-found.text.length)
          else (row,column)

/-- An anchor found again by its line's hash, nearest its old place counted from the end. -/
def refind (anchor : Anchor) (total offset : Nat) (rows : List Row) : Option Anchor :=
  let fromEnd : Int := total-anchor.row
  let starts := (List.range rows.length).filter (fun index =>
    (rows[index]?).any (fun row => row.lineHash=anchor.lineHash) ∧ lineStart rows index=index)
  (firstMin (fun (index : Nat) => ((rows.length : Int)-index-fromEnd).natAbs) starts).bind
    fun row =>
      let (row,column) := alongLine rows rows.length row offset
      anchorAt rows row column

namespace Screen

variable (screen : Screen)

def index (row : Nat) : Option Nat :=
  if screen.skipped≤row ∧ row-screen.skipped<screen.rows.length then
    some (row-screen.skipped)
  else none

def row (row : Nat) : Option Row :=
  (screen.index row).bind fun index => screen.rows[index]?

def total : Nat := screen.skipped+screen.rows.length

/-- The index of the first row kept once the read is trimmed. -/
def trimPoint : Nat :=
  min (screen.next-screen.skipped-screen.height) screen.rows.length

def screenStart : Nat := screen.rows.length-screen.height

/-- Takes over the marks of a read of `total` rows, each found again by its line's text or kept
at its place counted from the end. -/
def keepMarks (marks : List Anchor) (newest : Option Anchor) (total : Nat) :
    Screen :=
  let shift : Int := screen.total-total
  let kept := fun mark : Anchor =>
    (some ((refind mark total 0 screen.rows).getD {mark with row := mark.row+shift})).filter
      (fun mark => !screen.atDocumentStart || decide (0 ≤ mark.row))
  {screen with marks := marks.filterMap kept, newestMark := newest.bind kept}

def trim : Screen :=
  let dropped := screen.trimPoint
  if dropped=0 then screen
  else
    {screen with
      continued := (screen.rows[dropped-1]?).any (·.wraps)
      rows := screen.rows.drop dropped
      skipped := screen.skipped+dropped}

end Screen

def nextOf (rows above asked : Nat) : Nat := if asked=0 then above else rows-asked

def Screen.fresh (rows : List Row) (read : Read) (width height asked : Nat) : Screen :=
  let caret := caretRow rows.length read.caretRowsToEnd
  { rows
    width
    height
    next := nextOf rows.length read.above asked
    atDocumentStart := read.atDocumentStart
    caret
    caretColumn := (caret.map fun row => lineColumn rows row read.caretColumn).getD 0
    showsText := Terminal.showsText read.screen}

/-- The screen a new screen replaced: for each text of its rows the least distance from the end a
row with it had, and its command marks. -/
structure Aside where
  rows : List (Nat × Nat)
  marks : List Anchor
  total : Nat
  deriving DecidableEq

namespace Aside

/-- The aside screen of a memory: the last row with a text is the one nearest the end. -/
def ofScreen (memory : Screen) : Aside :=
  let total := memory.rows.length
  ⟨memory.rows.zipIdx.reverse.filterMap fun (row,index) =>
      if row.isBlank then none else some (row.hash,total-index),
    memory.marks,memory.total⟩

/-- A row with text of the aside screen is in a read, at its place or higher. -/
def found (aside : Aside) (rows : List Row) : Bool :=
  rows.zipIdx.any fun (row,index) => !row.isBlank &&
    (aside.rows.lookup row.hash).any fun distance => distance≤rows.length-index

end Aside

structure TerminalMemory where
  screen : Option Screen := none
  aside : Option Aside := none
  askedWhole : Bool := false
  askedRefused : Bool := false
  askedAbove : Option Nat := none

/-- What aligning a read with one screen's memory gave, old rows counted as its rows are. -/
structure Aligned where
  new : List NewRow
  old : List OldRow
  fixed : Int
  place : Int
  rotation : Nat
  keptCaret : Bool
  keptText : Bool
  paired : Bool
  ambiguous : Bool
  left : Bool
  refused : Bool

def Aligned.lost (aligned : Aligned) : Bool := !aligned.keptCaret

/-- What became of each row of the last read, those trimmed moved as any history row. -/
def Aligned.fates (aligned : Aligned) (current : Screen) : List OldRow :=
  (List.range current.skipped).map (fun row : Nat =>
    let target : Int := (row : Int)-current.skipped+aligned.place
    if 0≤target then
      if target.toNat<aligned.new.length then .kept target.toNat else .gone false
    else if aligned.left then .left
    else .above)++aligned.old

/-- How to finish an alignment once its kept rows are found. -/
structure How where
  fixed : Int
  place : Int
  rotation : Nat
  history : Nat
  free : Bool
  whole : Bool
  shown : List Nat

def hasText (rows : List Row) (index : Nat) : Bool := (rows[index]?).any fun row => !row.isBlank

def textRows (rows : List Row) : List Nat :=
  (List.range rows.length).filter fun index => hasText rows index

def hashes (rows : List Row) (indices : List Nat) : List Nat :=
  indices.filterMap fun index => rows[index]?.map (·.hash)

def sameHash (old : List Row) (source : Nat) (rows : List Row) (target : Nat) : Bool :=
  match old[source]?,rows[target]? with
  | some old,some new => old.hash=new.hash
  | _,_ => false

variable (memory : Screen)

/-- The rows above the last read's screen read as its history block did, with text among them. -/
def positions (rows : List Row) (read : Read) : Bool :=
  let screen : Nat := memory.next-memory.skipped
  let block := min read.above rows.length
  let compared := (rows.take block).zipIdx.filterMap (fun (row,target) =>
    let source : Int := (screen : Int)-block+target
    if 0 ≤ source then memory.rows[source.toNat]?.map (fun old => (old,row)) else none)
  compared.all (fun (old,row) => old.hash=row.hash) &&
    (compared.isEmpty || compared.any fun (_,row) => !row.isBlank)

/-- How many pairs of rows with one text each shift from `low` on puts one on the other. -/
def shiftVotes (old : List Row) (oldStart oldStop : Nat) (rows : List Row) (start stop : Nat) :
    Int × List Nat :=
  let low : Int := (start : Int)-oldStop+1
  let span := (stop-start)+(oldStop-oldStart)-1
  let sources := (List.range' oldStart (oldStop-oldStart)).filter (hasText old)
  let slots := ((List.range' start (stop-start)).filter (hasText rows)).flatMap (fun target =>
    (sources.filter fun source => sameHash old source rows target).map fun source =>
      ((target : Int)-source-low).toNat)
  (low,if sources=[] then [] else (List.range span).map fun slot => slots.count slot)

/-- The last read's caret among the memory's rows, or their end. -/
def Screen.caretIndex : Option Nat :=
  memory.caret.bind fun row =>
    if memory.skipped≤row then some (row-memory.skipped) else none

def ambiguous (rows : List Row) (start stop : Nat) : Bool :=
  let caret := memory.caretIndex.getD memory.rows.length
  let counts := (shiftVotes memory.rows 0 (min memory.rows.length (caret+1)) rows start stop).2
  let best := counts.max?.getD 0
  decide (0<best) && decide (1<(counts.filter (·=best)).length)

/-- The shift most of the screen's rows with text take onto rows with their text. -/
def screenShift (rows : List Row) : Option Int :=
  let (low,counts) :=
    shiftVotes memory.rows memory.screenStart memory.rows.length rows 0 rows.length
  (counts.max?.filter (0<·)).map fun best => low+counts.idxOf best

def commonestShift (pairs : Pairs) (base : Int) : Int :=
  let shifts := pairs.map (fun (source,target) => (target : Int)-source)
  match shifts with
  | [] => base
  | first::rest =>
      rest.foldl (fun best shift => if shifts.count best<shifts.count shift then shift else best)
        first

end Verbatim.Terminal
