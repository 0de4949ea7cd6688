import Verbatim.Terminal.Memory

namespace Verbatim.Terminal

/-- What the rows of a read are and what became of the memory's, as the alignment fills them in. -/
structure Tables where
  new : List NewRow
  old : List OldRow

namespace Tables

variable (t : Tables)

def isNew (target : Nat) : Bool := t.new[target]?=some .new

def isGone (source : Nat) : Bool := t.old[source]?=some (.gone false)

/-- Puts what a row of the read is, and what became of the old row it was. -/
def put (source target : Nat) (kind : NewRow) (fate : OldRow) : Tables :=
  ⟨t.new.set target kind,t.old.set source fate⟩

def markShown (target : Nat) : Tables :=
  if t.isNew target then {t with new := t.new.set target .shown} else t

end Tables

section Classify

variable (memory : Screen) (rows : List Row) (read : Read) (caret : Option Nat)
  (kept : Pairs) (how : How)

def How.placeOf (how : How) (source : Nat) : Int := source+how.fixed

variable (t : Tables)

def keepPairs : Tables :=
  kept.foldl (fun t (source,target) =>
    t.put source target (if sameHash memory.rows source rows target then
        .kept source ((target : Int)≠how.placeOf source)
      else .grown source)
      (.kept target)) t

def keepNearest : Tables :=
  let gone := (List.range' how.history (memory.rows.length-how.history)).filter (fun source =>
    t.isGone source && hasText memory.rows source)
  gone.foldl (fun t source =>
    match firstMin (fun target : Nat => ((target : Int)-how.placeOf source).natAbs)
        ((List.range rows.length).filter fun target =>
          sameHash memory.rows source rows target && t.isNew target) with
    | some target => t.put source target (.kept source ((target : Int)≠how.placeOf source))
        (.kept target)
    | none => t) t

def extendsRow (new old : Row) : Bool :=
  decide (old.text.bytes<new.text.bytes) && decide (old.text <+: new.text)

def keepGrown : Tables :=
  if how.free ∧ kept≠[] then
    (List.range' how.history (memory.rows.length-how.history)).foldl (fun t source =>
      let target := (how.placeOf source).toNat
      if 0≤how.placeOf source ∧ hasText memory.rows source ∧ t.isGone source ∧ t.isNew target ∧
          (memory.rows[source]?.bind fun old => rows[target]?.map fun new =>
            extendsRow new old).getD false then
        t.put source target (.grown source) (.kept target)
      else t) t
  else t

/-- The kept pairs up to `source` passed over, the shift of the last of them, and the rest. -/
def passPlaced (source : Nat) : Pairs → Option Int → Pairs × Option Int
  | [],shiftAbove => ([],shiftAbove)
  | (keptSource,keptTarget)::placed,shiftAbove =>
      if source<keptSource then ((keptSource,keptTarget)::placed,shiftAbove)
      else passPlaced source placed (some ((keptTarget : Int)-keptSource))

/-- One blank row, kept where the kept row above it, or else below it, puts it. -/
def keepBlank (source : Nat) (shiftAbove below : Option Int) : Tables :=
  let shift := (shiftAbove.or below).getD how.fixed
  let target : Int := source+shift
  if 0≤target ∧ (rows[target.toNat]?).any (·.isBlank) ∧ t.isNew target.toNat then
    t.put source target.toNat (.kept source (shift≠how.fixed)) (.kept target.toNat)
  else t

def keepBlanks : Tables :=
  ((List.range memory.rows.length).foldl (fun (t,placed,shiftAbove) source =>
    let (placed,shiftAbove) := passPlaced source placed shiftAbove
    if hasText memory.rows source then (t,placed,shiftAbove)
    else
      let below := placed.head?.map (fun (keptSource,keptTarget) =>
        (keptTarget : Int)-keptSource)
      (keepBlank rows how t source shiftAbove below,placed,shiftAbove)) (t,kept,none)).1

def isRefused : Bool := !how.whole && (read.shrank || !read.fromStart)

def showTop : Tables :=
  let firstWent : Int :=
    if how.whole then 0
    else if how.free ∧ !isRefused read how then
      commonestShift (kept.filter fun (source,_) => source<how.history) 0
    else how.fixed
  (List.range (min firstWent.toNat rows.length)).foldl (fun t target => t.markShown target) t

def gaps : Option (Nat × Nat) → Pairs → List (Option (Nat × Nat) × Option (Nat × Nat))
  | previous,[] => [(previous,none)]
  | previous,pair::kept => (previous,some pair)::gaps (some pair) kept

def gapRows (rows : List Row) (start stop : Nat) (isLeft : Nat → Bool) : List (Nat × Likeness) :=
  ((List.range' start (stop-start)).filter isLeft).filterMap fun index =>
    rows[index]?.map fun row => (index,Likeness.ofText row.text)

/-- The rows left in one gap, paired as rewritten by likeness. -/
def pairGap (above below : Option (Nat × Nat)) : Tables :=
  let oldStart := (above.map fun pair => pair.1+1).getD 0
  let oldStop := (below.map fun pair => pair.1).getD memory.rows.length
  let newStart := (above.map fun pair => pair.2+1).getD 0
  let newStop := (below.map fun pair => pair.2).getD rows.length
  let prefer := ((below.or above).map fun (source,target) => (target : Int)-source).getD how.fixed
  let oldGap := gapRows memory.rows oldStart oldStop fun source =>
    how.history ≤ source ∧ 0≤how.placeOf source ∧ t.isGone source ∧ hasText memory.rows source
  let newGap := gapRows rows newStart newStop (fun target => t.isNew target ∧ hasText rows target)
  (pairPlaces oldGap newGap prefer).foldl (fun t (source,target) =>
    t.put source target (.rewritten source ((target : Int)≠how.placeOf source) false)
      (.rewritten target)) t

def pairRewritten : Tables :=
  if kept=[] then t
  else (gaps none kept).foldl (fun t (above,below) => pairGap memory rows how t above below) t

/-- A line was written where the caret's line started, rather than being that line rewritten. -/
def writtenPast (old : List Row) (first oldColumn : Nat) (rows : List Row) (target column : Nat) :
    Bool :=
  if column≤oldColumn then false
  else
    let oldText := lineText (itemsIn old first (lineEnd old first+1))
    let newText := lineText (itemsIn rows target (lineEnd rows target+1))
    let cells := fun text : Text =>
      ((text++List.replicate column ' ').drop oldColumn).take (column-oldColumn)
    lostText oldText newText && decide (cells oldText=cells newText)

/-- The caret's line, where it started before and otherwise new, is that line rewritten. -/
def rewriteCaret : Tables :=
  match memory.caretIndex.filter (· < memory.rows.length),caret with
  | some oldRow,some caret =>
      let first := lineStart memory.rows oldRow
      let target := lineStart rows caret
      if !how.free ∧ (target : Int)=how.placeOf first ∧ hasText memory.rows first ∧
          t.isGone first ∧ t.isNew target ∧
          !writtenPast memory.rows first memory.caretColumn rows target
            (lineColumn rows caret read.caretColumn) then
        t.put first target (.rewritten first false false) (.rewritten target)
      else t
  | _,_ => t

/-- A row next to one rewritten elsewhere was kept in the same move. -/
def withNeighbour (new : List NewRow) (target : Nat) (distance : Int) : Bool :=
  let moved := fun next : Nat => match new[next]? with
    | some (.kept source _) | some (.grown source) => (next : Int)-how.placeOf source=distance
    | _ => false
  (decide (0<target) && moved (target-1)) || moved (target+1)

/-- Rows rewritten elsewhere than their place moved alone, or with their neighbours. -/
def markAlone : Tables :=
  {t with new := t.new.zipIdx.map (fun (kind,target) => match kind with
    | .rewritten source true _ =>
        .rewritten source true (!withNeighbour how t.new target ((target : Int)-how.placeOf source))
    | kind => kind)}

def linger : Tables :=
  {t with old := (t.old.zip memory.rows).zipIdx.map (fun ((fate,row),source) =>
    if fate≠.gone false then fate
    else if how.placeOf source<0 then if read.atDocumentStart then .left else .above
    else if row.isBlank then fate
    else if row.redrawn ∨ memory.caretIndex.any (· ≤ source) ∨
        caret.any (fun row => (row : Int)≤how.placeOf source) then .gone true
    else fate)}

/-- The index of the lingering row nearest `target` with a text. -/
def nearestLingering (lingering : List (Int × Nat)) (hash target : Nat) : Option Nat :=
  firstMin (fun index => ((lingering.getD index (0,0)).1-target).natAbs)
    ((List.range lingering.length).filter fun index =>
      (lingering[index]?).any fun row => row.2=hash)

/-- New rows with a lingering row's text are those rows back, from row `target` on. -/
def takeBack : List (Int × Nat) → List (NewRow × Row) → Nat → List NewRow
  | _,[],_ => []
  | lingering,(kind,row)::rest,target =>
      if kind≠.new ∨ row.isBlank then kind::takeBack lingering rest (target+1)
      else match nearestLingering lingering row.hash target with
        | some index =>
            .returned ((lingering.getD index (0,0)).1≠target) ::
              takeBack (lingering.eraseIdx index) rest (target+1)
        | none => kind::takeBack lingering rest (target+1)

def unexpired : List Lingering :=
  memory.lingering.filter fun row => read.atMs-row.sinceMs≤lingeringMs

def matchRows : Tables :=
  let t : Tables := ⟨List.replicate rows.length .new,
    List.replicate memory.rows.length (.gone false)⟩
  let t := keepPairs memory rows kept how t
  let t := how.shown.foldl (fun t target => t.markShown target) t
  let t := keepNearest memory rows how t
  let t := keepGrown memory rows kept how t
  let t := keepBlanks memory rows kept how t
  let t := showTop rows read kept how t
  let t := pairRewritten memory rows kept how t
  rewriteCaret memory rows read caret how t

def settled : Tables :=
  linger memory read caret how (markAlone how (matchRows memory rows read caret kept how))

/-- Where each lingering row would be in the read, and its text. -/
def lingeringPlaces : List (Int × Nat) :=
  (unexpired memory read).map fun row =>
    (row.place-memory.skipped+how.fixed,row.row.hash)

def classify : Aligned :=
  let t := settled memory rows read caret kept how
  let new := takeBack (lingeringPlaces memory read how) (t.new.zip rows) 0
  let isKept := fun source : Nat => match t.old[source]? with
    | some (.kept _) => true
    | _ => false
  { new
    old := t.old
    fixed := how.fixed
    place := how.place
    rotation := how.rotation
    keptCaret := (List.range memory.rows.length).any (fun source =>
      memory.caretIndex.all (source≤·) && hasText memory.rows source &&
        match t.old[source]? with
        | some (.kept target) => new[target]?≠some .shown
        | _ => false)
    keptText := (List.range memory.rows.length).any (fun source =>
      hasText memory.rows source && isKept source)
    paired := t.old.any (fun fate => match fate with
      | .rewritten _ => true
      | _ => false)
    ambiguous := false
    left := read.atDocumentStart
    refused := isRefused read how}

end Classify

end Verbatim.Terminal
