import Verbatim.Terminal.Text

namespace Verbatim.Terminal

/-- A kept row's worth in an alignment's score, above any number of blocks. -/
def keptWorth : Int := 2^42

/-- A block's cost in an alignment's score, above any number of rows moved. -/
def blockCost : Int := 2^21

def noPair : Nat := 2^32-1

def saturate (score : Int) : Int := max (-2^63) (min score (2^63-1))

/-- Old rows with the new rows they are taken for. -/
abbrev Pairs := List (Nat × Nat)

/-- The pairs run down both reads. -/
abbrev Parallel (pairs : Pairs) : Prop := pairs.Pairwise fun p q => p.1<q.1 ∧ p.2<q.2

abbrev Rising (rows : List Nat) : Prop := rows.Pairwise (·<·)

/-- A kept pair found: old row `old` is new row `new`, after the pair numbered `prev`. -/
structure Match where
  old : Nat
  new : Nat
  prev : Nat
  deriving DecidableEq

/-- The best alignment known to end at or before a cell: its score and its last pair. -/
abbrev Cell := Int × Nat

def noCell : Cell := (0,noPair)

/-- One row of the dynamic programming under way, with the best runs on each shift and the
pairs found so far. -/
structure Sweep where
  left : Cell
  here : List Cell
  same : List Cell
  found : List Match

/-- The cell of old row `oldIndex` and new row `newIndex`, the `j`-th. `isize` is what a difference
of indices, or an index alone, is rounded by. -/
def Sweep.cell (isize : Int → Int) (low fixed : Int) (oldIndex : Nat) (above : List Cell)
    (kept : Bool) (newIndex j : Nat) (s : Sweep) : Sweep :=
  let best := above.getD j noCell
  let best := if best.1<s.left.1 then s.left else best
  if kept then
    let shift := isize (isize newIndex-isize oldIndex)
    let moved : Int := if shift=fixed then 0 else 1
    let diagonal := if j=0 then noCell else above.getD (j-1) noCell
    let score := saturate (saturate (saturate (diagonal.1+keptWorth)-blockCost)-moved)
    let slot := (isize (shift-low)).toNat
    let run := s.same.getD slot noCell
    let continued := saturate (saturate (run.1+keptWorth)-moved)
    let goesOn := run.2≠noPair ∧ score<continued
    let score := if goesOn then continued else score
    let prev := if goesOn then run.2 else diagonal.2
    let id := min s.found.length noPair
    let best := if best.1<score then (score,id) else best
    { left := best
      here := s.here++[best]
      same := if run.1<score then s.same.set slot (score,id) else s.same
      found := s.found++[⟨oldIndex,newIndex,prev⟩]}
  else {s with left := best, here := s.here++[best]}

def sweepRow (isize : Int → Int) (new : List Nat) (kept : Nat → Bool) (low fixed : Int)
    (oldIndex : Nat) (above same : List Cell) (found : List Match) : Sweep :=
  new.zipIdx.foldl (fun s (newIndex,j) =>
      s.cell isize low fixed oldIndex above (kept j) newIndex j)
    ⟨noCell,[],same,found⟩

def sweepRows (isize : Int → Int) (old new : List Nat) (kept : Nat → Nat → Bool) (low fixed : Int)
    (same : List Cell) : Sweep :=
  old.zipIdx.foldl (fun s (oldIndex,i) =>
      sweepRow isize new (kept i) low fixed oldIndex s.here s.same s.found)
    ⟨noCell,List.replicate new.length noCell,same,[]⟩

def traceBack (found : List Match) : Nat → Nat → Pairs
  | 0,_ => []
  | fuel+1,last =>
      if last=noPair then []
      else match found[last]? with
        | none => []
        | some pair => (pair.old,pair.new)::traceBack found fuel pair.prev

section Keep

variable (isize : Int → Int) (old new : List Nat) (kept : Nat → Nat → Bool) (fixed : Int)

/-- The longest common subsequence of the old rows and the new rows, two rows kept when `kept`
says so of their positions: among equally long ones the one in the fewest blocks of one shift,
and then with the fewest rows whose shift is not `fixed`. -/
def keepBy : Pairs :=
  match old.head?,old.getLast?,new.head?,new.getLast? with
  | some firstOld,some lastOld,some firstNew,some lastNew =>
      let low := isize (isize firstNew-isize lastOld)
      let span := (isize (isize (isize (isize lastNew-isize firstOld)-low)+1)).toNat
      let sweep := sweepRows isize old new kept low fixed (List.replicate span noCell)
      let last := (sweep.here.getLast?.map (·.2)).getD noPair
      (traceBack sweep.found sweep.found.length last).reverse
  | _,_,_,_ => []

/-- `keep` of any indices: their differences saturate as an `isize`. -/
def keep : Pairs := keepBy saturate old new kept fixed

/-- `keep` of places in a slice, which are too few for a difference to saturate. -/
def keepPlaces : Pairs := keepBy id old new kept fixed

end Keep

/-- One row's characters, prepared for comparing by likeness: a mask of 64-bit words for each
character it holds, by the character's number, which is 16 bits wide and starts at 1. -/
structure Likeness where
  chars : List Char
  words : Nat
  masks : List Nat
  numbers : List (Char × Nat)

namespace Likeness

variable (like : Likeness)

def slot (c : Char) : Option Nat :=
  match (like.numbers.lookup c).getD 0 with
  | 0 => none
  | number+1 => some number

def note (c : Char) (place : Nat) : Likeness :=
  let (like,slot) := match like.slot c with
    | some slot => (like,slot)
    | none =>
        let slot := like.masks.length / like.words
        ({like with
            masks := like.masks++List.replicate like.words 0
            numbers := like.numbers++[(c,min (slot+1) (2^16-1))]},slot)
  let word := slot*like.words+place / 64
  {like with masks := like.masks.modify word (· ||| 2^(place%64))}

def ofText (text : Text) : Likeness :=
  let words := max ((text.length+63) / 64) 1
  let like := text.zipIdx.foldl (fun (like : Likeness) (c,place) => like.note c place)
    ⟨[],words,[],[]⟩
  {like with chars := text}

def step : List Nat → List Nat → Nat → List Nat
  | word::v,mask::masks,carry =>
      let kept := word &&& mask
      let rest := word &&& (2^64-1-mask)
      let sum := word+kept+carry
      (sum%2^64 ||| rest)::step v masks (if 2^64 ≤ sum then 1 else 0)
  | v,_,_ => v

/-- How many of the lowest `length` bits of a word are unset. -/
def unset (word length : Nat) : Nat :=
  ((List.range length).filter fun bit => !word.testBit bit).length

/-- How many characters the other row shares with this one in order. -/
def common (other : List Char) : Nat :=
  let v := other.foldl (fun v c => match like.slot c with
    | none => v
    | some slot => step v ((like.masks.drop (slot*like.words)).take like.words) 0)
    (List.replicate like.words (2^64-1))
  (v.zipIdx.map fun (word,at64) => unset word (min (like.chars.length-at64*64) 64)).sum

/-- Neither row is empty, and they share in order at least half the longer's characters. -/
def alike (like other : Likeness) : Bool :=
  let (a,b) := (like.chars,other.chars)
  let short := min a.length b.length
  let long := max a.length b.length
  !(a.isEmpty || b.isEmpty) && !decide (short*2<long) && decide (long≤like.common b*2)

end Likeness

variable (isize : Int → Int) (old new : List (Nat × Likeness)) (prefer : Int)

/-- What keeping old row `a` as new row `b` adds, when they are alike. -/
def pairWeight (a b : Nat) : Option Int :=
  match old[a]?,new[b]? with
  | some (oldRow,oldLike),some (newRow,newLike) =>
      if oldLike.alike newLike then
        let shift := isize (isize newRow-isize oldRow)
        some (saturate (keptWorth+if shift=prefer then 1 else 0))
      else none
  | _,_ => none

/-- The best matchings of one old row and those below it, with `below` the row beneath. -/
def pairRow (weight : Nat → Option Int) (q : Nat) (below : List Int) : List Int :=
  (List.range q).foldr (fun b right =>
      let value := max (below.getD b 0) (right.headD 0)
      let value := match weight b with
        | some weight => max value (saturate (below.getD (b+1) 0+weight))
        | none => value
      value::right) [0]

def pairTable (weight : Nat → Nat → Option Int) (p q : Nat) : List (List Int) :=
  (List.range p).foldr (fun a rows => pairRow (weight a) q (rows.headD [])::rows)
    [List.replicate (q+1) 0]

def pairWalk (weight : Nat → Nat → Option Int) (table : List (List Int)) : Nat → Nat → Nat → Pairs
  | 0,_,_ => []
  | fuel+1,a,b =>
      let valueAt := fun a b => (table.getD a []).getD b 0
      match old[a]?,new[b]? with
      | some (oldRow,_),some (newRow,_) =>
          if (weight a b).any (fun weight =>
              valueAt a b=saturate (valueAt (a+1) (b+1)+weight)) then
            (oldRow,newRow)::pairWalk weight table fuel (a+1) (b+1)
          else if valueAt a b=valueAt (a+1) b then
            pairWalk weight table fuel (a+1) b
          else pairWalk weight table fuel a (b+1)
      | _,_ => []

/-- The rows left between two kept rows paired as rewrites: as many alike rows in order as can
be, and among those matchings the most whose shift is `prefer`. -/
def pairBy : Pairs :=
  let weight := pairWeight isize old new prefer
  pairWalk old new weight (pairTable weight old.length new.length) (old.length+new.length) 0 0

/-- `pair` of rows of any indices, as `keep` is of any. -/
def pair : Pairs := pairBy saturate old new prefer

/-- `pair` of rows at places in a slice. -/
def pairPlaces : Pairs := pairBy id old new prefer

end Verbatim.Terminal
