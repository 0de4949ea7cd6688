import Verbatim.Terminal.Text

namespace Verbatim.Terminal

/-- A row of a read: its text without padding and the hashes of it and of its line. -/
structure Row where
  text : Text
  hash : Nat
  wraps : Bool
  lineHash : Nat
  redrawn : Bool
  deriving DecidableEq

/-- The row shows nothing: no text, or only the spaces of a wrapped line's row. -/
def Row.isBlank (row : Row) : Bool :=
  row.text.isEmpty || (row.wraps && (trimPadding row.text).isEmpty)

/-- A read's text without its lines' padding, and the lines' lengths with it, in runs. -/
structure ReadText where
  text : Text
  lengths : List (Nat × Nat)
  deriving DecidableEq

structure Read where
  text : ReadText
  screen : Text
  fromStart : Bool
  shrank : Bool
  atDocumentStart : Bool
  alternate : Bool
  caretRowsToEnd : Nat
  caretLine : Text
  caretColumn : Nat
  atMs : Nat
  above : Nat

def crlfLines : Text → List Text
  | [] => [[]]
  | '\r' :: '\n' :: rest => []::crlfLines rest
  | c::rest =>
      match crlfLines rest with
      | line::lines => (c::line)::lines
      | [] => [[c]]

def stripBreak (text : Text) : Text :=
  if text.drop (text.length-2)=['\r','\n'] then text.take (text.length-2) else text

/-- Each line with how many spaces padded it; a line with no length given has no padding. -/
def padLines : List Text → List Nat → List (Text × Nat)
  | [],_ => []
  | line::lines,[] => (line,0)::padLines lines []
  | line::lines,length::lengths => (line,length-line.length)::padLines lines lengths

def ReadText.lines (text : ReadText) : List (Text × Nat) :=
  padLines (crlfLines text.text)
    (text.lengths.flatMap fun (count,length) => List.replicate count length)

/-- The rows of an ASCII line of `length` cells, from cell `start` on. -/
def asciiPieces (length width : Nat) : Nat → Nat → List (Nat × Nat)
  | 0,_ => []
  | fuel+1,start =>
      let stop := min (start+width) length
      (start,stop)::if length ≤ stop then [] else asciiPieces length width fuel stop

/-- The characters of a line with the bytes they start at, its padding's spaces included. -/
def charIndices : Text → Nat → Nat → List (Nat × Char)
  | c::line,start,spaces => (start,c)::charIndices line (start+c.utf8Size) spaces
  | [],start,spaces => (List.range spaces).map fun i => (start+i,' ')

variable (w : Widths)

/-- One line followed by `spaces` spaces, split into rows of `width` cells, as ranges of bytes. -/
def rowPieces (line : Text) (spaces width : Nat) : List (Nat × Nat) :=
  let length := line.bytes+spaces
  if length≤width ∨ width=0 then [(0,length)]
  else if line.all (fun c => c.toNat<0x80) then asciiPieces length width (length+1) 0
  -- every character below U+0800, which takes at most two bytes, takes at most one cell
  else if line≠[] ∧ line.all (fun c => c.toNat<0x800) ∧ line.length+spaces≤width then
    [(0,length)]
  else
    let (pieces,start,_) := (charIndices line 0 spaces).foldl (fun (pieces,start,cells) (place,c) =>
        let cell := w.ofChar c
        if width<cells+cell ∧ start<place then (pieces++[(start,place)],place,cell)
        else (pieces,start,cells+cell))
      ([],0,0)
    pieces++[(start,length)]

/-- The rows of one line: padding is trimmed from the line's last row only. -/
def lineRows (width : Nat) (line : Text) (spaces : Nat) : List Row :=
  let pieces := rowPieces w line spaces width
  let last := pieces.length-1
  let stop := (trimPadding line).bytes
  let lineHash := Text.hash (textIn line 0 stop)
  pieces.zipIdx.map fun (piece,index) =>
    let start := min piece.1 stop
    let text := textIn line start (max (min piece.2 stop) start)
    ⟨text,if last=0 then lineHash else Text.hash text,index<last,lineHash,false⟩

/-- The lines of a read less the empty one after a line break at its end. -/
def ReadText.rowLines (text : ReadText) : List (Text × Nat) :=
  match text.lines with
  | first::rest =>
      if rest.getLast?=some ([],0) then first::rest.dropLast else first::rest
  | [] => []

/-- The rows of a read's text, each line split into rows of `width` cells. -/
def splitRows (text : ReadText) (width : Nat) : List Row :=
  text.rowLines.flatMap fun (line,spaces) => lineRows w width line spaces

def measure (screen caretRow : Text) (lastHeight : Option Nat) : Nat × Nat :=
  let lines := (crlfLines (stripBreak screen)).map w.ofText
  let last := lines.getLast?.getD 0
  let others := lines.dropLast
  let height := fun width => (lines.map fun cells => max ((cells+width-1) / width) 1).sum
  let fits := fun width => decide (0<width) && others.all (·%width=0) &&
    (decide (last%width=0) || decide ((last+1)%width=0))
  let caret := w.ofText (stripBreak caretRow)
  let fitting := [caret,caret+1].filter fun width => decide (0<caret) && fits width
  let width := ((fitting.find? fun width => some (height width)=lastHeight).or
    (fitting.head?.or (others.filter (0<·)).min?)).getD last
  if width=0 then (0,lines.length) else (width,height width)

/-- The caret's row, from how many rows it and those below it hold. -/
def caretRow (rows toEnd : Nat) : Option Nat :=
  if 0<toEnd ∧ toEnd≤rows then some (rows-toEnd) else none

def showsText (screen : Text) : Bool := !(squeezed screen).isEmpty

def lineStart (rows : List Row) : Nat → Nat
  | 0 => 0
  | row+1 => if (rows[row]?).any (·.wraps) then lineStart rows row else row+1

def lineEnd (rows : List Row) (first : Nat) : Nat :=
  let wrapped := (rows.drop first).takeWhile (·.wraps)
  if rows.length≤first+wrapped.length then first+(wrapped.length-1)
  else first+wrapped.length

def lineText (rows : List Row) : Text := trimPadding (rows.flatMap (·.text))

def itemsIn {α : Type} (items : List α) (start stop : Nat) : List α :=
  if start ≤ stop ∧ stop ≤ items.length then (items.drop start).take (stop-start) else []

def lineColumn (rows : List Row) (row column : Nat) : Nat :=
  ((itemsIn rows (lineStart rows row) row).map fun row => row.text.length).sum+column

end Verbatim.Terminal
