import Verbatim.Terminal.Classify

namespace Verbatim.Terminal

def keepRows (old window : List Nat) (keeps : Nat → Nat → Bool) (fixed : Int) : Pairs :=
  keepPlaces old window (fun i j => match old[i]?,window[j]? with
    | some source,some target => keeps source target
    | _,_ => false) fixed

section Align

variable (memory : Screen) (rows : List Row) (read : Read) (caret : Option Nat) (trusted : Bool)

/-- The shift of a row of the memory that is where the read's start places it. -/
def baseShift : Int := (read.above : Int)-(memory.next-memory.skipped : Nat)

/-- The shift of a history row's place, when it is known: the largest where it is not. -/
def historyPlace : Int :=
  if !read.shrank ∧ read.fromStart then baseShift memory read
  else if read.atDocumentStart ∧ memory.atDocumentStart then memory.skipped
  else 2^63-1

/-- The texts once among the old rows with text and once in the read. -/
def wentHashes : List Nat :=
  (hashes memory.rows (textRows memory.rows)).filter fun hash =>
    (memory.rows.filter (·.hash=hash)).length=1 ∧ (rows.filter (·.hash=hash)).length=1

/-- An old row on the screen grew into a new row, positions trusted. -/
def grows (source target : Nat) : Bool :=
  match memory.rows[source]?,rows[target]? with
  | some old,some new => trusted && decide (memory.screenStart ≤ source) && !old.isBlank &&
      decide (old.hash∉wentHashes memory rows) && decide (new.hash∉wentHashes memory rows) &&
      extendsRow new old
  | _,_ => false

/-- The read's rows that an old row with text may be kept at. -/
def keepWindow : List Nat :=
  (List.range rows.length).filter fun target =>
    (rows[target]?).any fun row => !row.isBlank &&
      (decide (row.hash∈hashes memory.rows (textRows memory.rows)) ||
        (decide (0≤(target : Int)-baseShift memory read) &&
          grows memory rows trusted ((target : Int)-baseShift memory read).toNat target))

def keepsAt (source target : Nat) : Bool :=
  let shift : Int := (target : Int)-source
  let base := baseShift memory read
  let place := historyPlace memory read
  let same := sameHash memory.rows source rows target
  if trusted ∧ source < memory.screenStart then decide (shift=base) && same
  else if source < memory.screenStart ∧ place<shift then
    same && decide ((screenShift memory rows).filter (place<·)=some shift)
  else same || (decide (shift=base) && grows memory rows trusted source target)

def keptPairs : Pairs :=
  keepRows (textRows memory.rows) (keepWindow memory rows read trusted)
    (keepsAt memory rows read trusted) (baseShift memory read)

def fixedShift : Int :=
  if trusted then baseShift memory read
  else commonestShift (keptPairs memory rows read trusted) (baseShift memory read)

/-- How the alignment of a read from the kept start is finished. -/
def readHow : How :=
  ⟨fixedShift memory rows read trusted,baseShift memory read,
    (baseShift memory read-fixedShift memory rows read trusted).toNat,memory.screenStart,
    !trusted,false,[]⟩

def alignRead : Aligned :=
  {classify memory rows read caret (keptPairs memory rows read trusted)
      (readHow memory rows read trusted) with
    ambiguous := !trusted && ambiguous memory rows 0 rows.length}

/-- The whole document's rows from row `within` on with an old row's text. -/
def wholeWindow (within : Nat) : List Nat :=
  (List.range' within (rows.length-within)).filter fun target =>
    (rows[target]?).any fun row =>
      !row.isBlank && decide (row.hash∈hashes memory.rows (textRows memory.rows))

/-- The rows kept of a whole document, from row `within` on. -/
def keptWhole (within : Nat) : Pairs :=
  keepRows (textRows memory.rows) (wholeWindow memory rows within)
    (fun source target => sameHash memory.rows source rows target) 0

/-- Aligns the whole document a lost read asked for, and says how what went by is counted. -/
def alignWhole (height : Nat) (refused : Bool) : Aligned × Lost :=
  let screen := rows.length-height
  let uncounted := ambiguous memory rows 0 rows.length
  let pairs := keptWhole memory rows (if uncounted then screen else 0)
  let caretRow := memory.caretIndex.getD memory.rows.length
  let found := pairs.find? fun (source,_) => source≤caretRow
  let lost : Lost :=
    if uncounted then .uncounted
    else if found.isNone then if refused then .about else .moreThan
    else .about
  let top := match lost,found with
    | .uncounted,_ => screen
    | .about,some (_,target) => min target screen
    | _,_ => 0
  let how : How := ⟨commonestShift pairs 0,(rows.length : Int)-memory.rows.length,0,
    memory.screenStart,true,true,List.range top⟩
  (classify memory rows read caret pairs how,lost)

end Align

/-- The lingering row a returned row is, taken back. -/
def takeLingering (lingering : List Lingering) (row : Row) (target : Nat) : List Lingering :=
  match firstMin (fun index =>
      ((lingering[index]?.map (·.place)).getD 0-(target : Int)).natAbs)
      ((List.range lingering.length).filter fun index =>
        (lingering[index]?).any fun gone => gone.row.hash=row.hash) with
  | some index => lingering.eraseIdx index
  | none => lingering

/-- Each row's history carried from the old row it was, and the lingering rows left. -/
def carryRows (memory : Screen) : List (NewRow × Row) → Nat → List Lingering →
    List Row × List Lingering
  | [],_,lingering => ([],lingering)
  | (kind,row)::rest,target,lingering =>
      let (row,lingering) := match kind with
        | .kept source _ | .grown source =>
            ({row with redrawn := (memory.rows[source]?).any (·.redrawn)},lingering)
        | .rewritten _ _ _ => ({row with redrawn := true},lingering)
        | .returned _ => ({row with redrawn := true},takeLingering lingering row target)
        | .new | .shown => (row,lingering)
      let (rows,lingering) := carryRows memory rest (target+1) lingering
      (row::rows,lingering)

def newlyLingering (memory : Screen) (aligned : Aligned) (now : Nat) : List Lingering :=
  aligned.old.zipIdx.filterMap fun (fate,source) =>
    if fate=.gone true then
      memory.rows[source]?.map (fun row => ⟨row,now,(source : Int)+aligned.fixed⟩)
    else none

/-- The character position of an anchor within its line. -/
def lineOffset (memory : Screen) (anchor : Anchor) : Nat :=
  match (if 0≤anchor.row then memory.index anchor.row.toNat else none) with
  | none => anchor.column
  | some index =>
      ((itemsIn memory.rows (lineStart memory.rows index) index).map
        fun row => row.text.length).sum+anchor.column

def surviving (memory : Screen) (aligned : Aligned) (fates : List OldRow) (read : Read)
    (row : Int) : Option Int :=
  let shift := aligned.fixed-memory.skipped
  let place := aligned.place-memory.skipped
  let clamp := fun target : Int => if read.atDocumentStart then max target 0 else target
  if aligned.refused ∧ (row < memory.skipped ∨ row+shift<0) then none
  else if row<0 then if memory.atDocumentStart then none else some (clamp (row+place))
  else match fates[row.toNat]? with
    | none => none
    | some (.kept target) | some (.rewritten target) => some target
    | some .above => some (clamp (row+place))
    | some (.gone _) =>
        let target := row+shift
        if (memory.row row.toNat).any (·.isBlank) ∧ 0≤target ∧
            aligned.new[target.toNat]?=some .new then some target
        else none
    | some .left => none

def nearestSurviving (memory : Screen) (aligned : Aligned) (fates : List OldRow) (read : Read) :
    Nat → Int → Option Int
  | fuel,row =>
      match surviving memory aligned fates read row with
      | some target => some target
      | none =>
          if row<0 then none
          else match fuel with
            | 0 => none
            | fuel+1 => nearestSurviving memory aligned fates read fuel (row-1)

def mapAnchor (anchor : Anchor) (memory : Screen) (aligned : Aligned) (fates : List OldRow)
    (next : Screen) (read : Read) : Option Anchor :=
  let atCaret := next.caret.bind fun row => anchorAt next.rows row read.caretColumn
  let shift := aligned.fixed-memory.skipped
  if aligned.refused ∧ (anchor.row < memory.skipped ∨ anchor.row+shift<0) then
    (refind anchor memory.total (lineOffset memory anchor) next.rows).or atCaret
  else match nearestSurviving memory aligned fates read (anchor.row.toNat+1) anchor.row with
    | some target =>
        if 0≤target ∧ target.toNat<next.rows.length then
          anchorAt next.rows target.toNat anchor.column
        else some {anchor with row := target}
    | none => atCaret

def mapMark (mark : Anchor) (fates : List OldRow) (place : Int) (rows : List Row)
    (atDocumentStart : Bool) : Option Anchor :=
  let kept := fun row : Int =>
    if !atDocumentStart ∨ 0≤row then some {mark with row := row} else none
  if mark.row<0 then kept (mark.row+place)
  else match fates[mark.row.toNat]? with
    | some (.kept target) =>
        let first := lineStart rows target
        rows[first]?.map fun row =>
          if row.lineHash=mark.lineHash then ⟨first,0,mark.lineHash⟩
          else {mark with row := target}
    | some .above => kept (mark.row+place)
    | _ => none

def remember (memory : Screen) (rows : List Row) (aligned : Aligned) (read : Read)
    (width height : Nat) (caret : Option Nat) : Screen :=
  let shift := aligned.fixed-memory.skipped
  let (rows,lingering) := carryRows memory (aligned.new.zip rows) 0
    ((unexpired memory read).map (·.shifted shift))
  let next : Screen :=
    { rows
      width
      height
      next := nextOf rows.length read.above memory.height
      atDocumentStart := read.atDocumentStart
      caret
      caretColumn := (caret.map fun row => lineColumn rows row read.caretColumn).getD 0
      showsText := Terminal.showsText read.screen
      lingering := lingering++newlyLingering memory aligned read.atMs}
  let fates := aligned.fates memory
  let place := aligned.place-memory.skipped
  let mark := fun mark => mapMark mark fates place rows read.atDocumentStart
  {next with
    review := memory.review.bind (fun anchor => mapAnchor anchor memory aligned fates next read)
    marks := memory.marks.filterMap mark
    newestMark := memory.newestMark.bind mark
    places := memory.places.filterMap (fun (number,anchor) =>
      (mapAnchor anchor memory aligned fates next read).map fun anchor => (number,anchor))}

/-- The lines of the rows from row `first` on, of which those in `line` are started. -/
def linesFrom (first : Nat) (line : List Row) : List Row → List Line
  | [] => []
  | row::rows =>
      if row.wraps ∧ rows≠[] then linesFrom first (line++[row]) rows
      else
        let stop := first+line.length+1
        let text := if line=[] then row.text else lineText (line++[row])
        let hash := ((line.head?).map (·.lineHash)).getD row.hash
        ⟨first,stop,text,hash,none⟩::linesFrom stop [] rows

def lines (rows : List Row) : List Line := linesFrom 0 [] rows

/-- What a line that only gained at its end since the last read was, as its length in bytes. -/
def grewFrom (line : Line) (kinds : List NewRow) (memory : Screen) (continued : Bool) :
    Option Nat :=
  let source := match kinds[line.start]? with
    | some (.kept source false) | some (.grown source) | some (.rewritten source false _) =>
        some source
    | _ => none
  source.bind (fun source =>
    let starts : Option Bool := match source with
      | 0 => some (!memory.continued)
      | above+1 => memory.rows[above]?.map (fun row => !row.wraps)
    starts.bind fun starts =>
      if !(starts || (continued && line.start == 0)) then none
      else
        let stop := ((List.range' source (memory.rows.length-source)).find? fun index =>
          (memory.rows[index]?).any fun row => !row.wraps).getD (memory.rows.length-1)
        if stop+1<source ∨ memory.rows.length ≤ stop then none
        else
          let was := lineText ((memory.rows.drop source).take (stop+1-source))
          if was≠[] ∧ was.bytes<line.text.bytes ∧ was <+: line.text then some was.bytes
          else none)

namespace TerminalMemory

def new : TerminalMemory := {}

variable (m : TerminalMemory)

def trim : TerminalMemory := {m with screen := m.screen.map Screen.trim}

def asideFound (rows : List Row) : Bool := m.aside.any (·.found rows)

def dropAside (aligned : Aligned) (read : Read) : TerminalMemory :=
  if (aligned.keptText ∨ aligned.paired) ∧ !read.alternate then {m with aside := none} else m

/-- The memory after a read aligned with `current`, and the outcome. -/
def finish (current next : Screen) (aligned : Aligned) (shape : Outcome)
    (switch : Switch) : TerminalMemory × Outcome :=
  let continued := match aligned.new.head? with
    | some (.kept source _) | some (.grown source) | some (.rewritten source _ _) =>
        if source=0 then current.continued else (current.rows[source-1]?).any (·.wraps)
    | _ => false
  let kinds := aligned.new.map (NewRow.shifted current.skipped)
  let lines := (lines next.rows).map (fun line =>
    {line with grewFrom := grewFrom line aligned.new current continued})
  ({m with screen := some {next with continued}},
    {shape with
      rows := kinds
      old := aligned.fates current
      lines
      rotation := aligned.rotation
      switch
      continued})

variable (current : Screen)

/-- A new screen: its visible rows are new and its rows above them silent. -/
def screens (rows : List Row) (read : Read) (shape : Outcome) : TerminalMemory × Outcome :=
  let back := m.aside.filter (·.found rows)
  let next := Screen.fresh rows read shape.width shape.height current.height
  let next := {next with
    review := shape.caret.bind (fun row => anchorAt next.rows row read.caretColumn)}
  let next := match back with
    | some back => next.keepMarks back.marks none back.total
    | none => next
  ({m with screen := some next, aside := some (Aside.ofScreen current)},
    {shape with
      rows := (List.range next.rows.length).map (fun row =>
        if row<next.screenStart then .shown else .new)
      old := List.replicate current.total (.gone false)
      lines := lines next.rows
      switch := .new
      lost := none})

def startAgain (rows : List Row) (read : Read) (shape : Outcome) : TerminalMemory × Outcome :=
  let next := Screen.fresh rows read shape.width shape.height current.height
  let found := fun anchor =>
    refind anchor current.total (lineOffset current anchor) next.rows
  let next := {next with
    review := (current.review.bind found).or
      (shape.caret.bind fun row => anchorAt next.rows row read.caretColumn)
    places := current.places.filterMap (fun (number,anchor) =>
      (found anchor).map fun anchor => (number,anchor))}
  let next := next.keepMarks current.marks current.newestMark current.total
  ({m with screen := some next},
    {shape with
      rows := List.replicate next.rows.length .new
      old := List.replicate current.total (.gone false)
      lines := lines next.rows})

def startFirst (rows : List Row) (read : Read) (shape : Outcome) (asked : Nat) :
    TerminalMemory × Outcome :=
  let next := Screen.fresh rows read shape.width shape.height asked
  ({m with screen := some next},
    {shape with
      first := true
      rows := List.replicate next.rows.length .new
      lines := lines next.rows})

def shapeOf (w : Widths) (m : TerminalMemory) (read : Read) : List Row × Outcome :=
  let (width,height) := measure w read.screen read.caretLine (m.screen.map (·.height))
  let rows := splitRows w read.text width
  (rows,{caret := caretRow rows.length read.caretRowsToEnd, width, height})

def isWhole (read : Read) : Bool :=
  m.askedWhole && read.atDocumentStart && !read.fromStart

def isRefusedRead (read : Read) : Bool := read.shrank || !read.fromStart

/-- Positions are trusted: the start was accepted and the history block reads as it did. -/
def isTrusted (rows : List Row) (read : Read) : Bool :=
  !isRefusedRead read && positions current rows read

def alignment (rows : List Row) (read : Read) (shape : Outcome) : Aligned :=
  if m.isWhole read then
    (alignWhole current rows read shape.caret shape.height m.askedRefused).1
  else alignRead current rows read shape.caret (isTrusted current rows read)

def readWhole (rows : List Row) (read : Read)
    (shape : Outcome) (askedRefused : Bool) : TerminalMemory × Outcome :=
  if m.asideFound rows then m.screens current rows read shape
  else
    let (aligned,lost) := alignWhole current rows read shape.caret shape.height askedRefused
    let next := remember current rows aligned read shape.width shape.height shape.caret
    (m.dropAside aligned read).finish current next aligned
      {shape with lost := some lost, byText := true} .none

def readOn (rows : List Row) (read : Read) (shape : Outcome) : TerminalMemory × Outcome :=
  let hadText := current.rows.any fun row => !row.isBlank
  let refused := isRefusedRead read
  let trusted := isTrusted current rows read
  let aligned := alignRead current rows read shape.caret trusted
  let shape := {shape with
    byText := !trusted
    rewritten := if refused then aligned.keptText || aligned.paired
      else !trusted && decide (aligned.place<aligned.fixed)}
  let nothing := hadText && !aligned.keptText && !aligned.paired
  if nothing ∧ (read.alternate ∨ m.asideFound rows) then m.screens current rows read shape
  else
    let lost := !trusted && !refused && hadText && (aligned.lost || aligned.ambiguous)
    if nothing ∨ lost then
      ({m with askedWhole := true, askedRefused := refused, screen := some current},
        {shape with wholeDocument := true})
    else
      let next := remember current rows aligned read shape.width shape.height shape.caret
      (m.dropAside aligned read).finish current next aligned shape .none

/-- Aligns a read with the memory, and takes it as the memory's last read, unless it asks for
the whole document first or its screen shows no text. -/
def read (w : Widths) (m : TerminalMemory) (read : Read) : TerminalMemory × Outcome :=
  let m := m.trim
  let (rows,shape) := shapeOf w m read
  let asked := {m with askedWhole := false, askedRefused := false, askedAbove := none}
  match m.screen with
  | none =>
      if m.askedAbove.isNone ∧ read.above=0 ∧ !read.atDocumentStart then
        ({asked with askedAbove := some shape.height},{shape with historyBlock := true})
      else asked.startFirst rows read shape (m.askedAbove.getD 0)
  | some current =>
      if (shape.width,shape.height)≠(current.width,current.height) then
        asked.startAgain current rows read shape
      else if current.showsText ∧ !showsText read.screen then (asked,{shape with blank := true})
      else if m.isWhole read then asked.readWhole current rows read shape m.askedRefused
      else asked.readOn current rows read shape

end TerminalMemory

end Verbatim.Terminal
