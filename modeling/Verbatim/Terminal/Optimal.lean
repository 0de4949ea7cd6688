import Mathlib.Data.List.Perm.Subperm
import Mathlib.Tactic.Ring
import Verbatim.Terminal.Subsequence

namespace Verbatim.Terminal

open Framework List Option Nat

def shiftOf (p : Nat × Nat) : Int := (p.2 : Int)-p.1

/-- A common subsequence of the old and the new rows, its last pair first. -/
structure Trail (old new : List Nat) (kept : Nat → Nat → Bool) (pairs : Pairs) :
    Prop where
  sorted : pairs.Pairwise (fun p q => q.1<p.1 ∧ q.2<p.2)
  kept : ∀ p∈pairs, KeptPair old new kept p.1 p.2

def movedCost (fixed : Int) (p : Nat × Nat) : Int := if shiftOf p=fixed then 0 else 1

/-- What a pair after others costs when it starts a block. -/
def startCost (p : Nat × Nat) (pairs : Pairs) : Int :=
  if pairs.head?.map shiftOf=some (shiftOf p) then 0 else blockCost

/-- The score of a common subsequence: the rows kept, less the blocks and then the rows moved. -/
def trailScore (fixed : Int) : Pairs → Int
  | [] => 0
  | p::pairs =>
      trailScore fixed pairs+keptWorth-startCost p pairs-movedCost fixed p

variable {old new : List Nat} {kept : Nat → Nat → Bool} {fixed : Int} {p : Nat × Nat}
  {pairs : Pairs}
  {found : List Match}

theorem movedCost_bounds (fixed : Int) (p : Nat × Nat) :
    0 ≤ movedCost fixed p ∧ movedCost fixed p≤1 := by
  unfold movedCost
  split <;> omega

theorem startCost_bounds (p : Nat × Nat) (pairs : Pairs) :
    0 ≤ startCost p pairs ∧ startCost p pairs≤blockCost := by
  unfold startCost blockCost
  split <;> omega

theorem startCost_nil (p : Nat × Nat) : startCost p []=blockCost := rfl

/-- A common subsequence is worth no more than its rows less one block and the rows moved. -/
theorem trailScore_le (fixed : Int) (p : Nat × Nat) (pairs : Pairs) :
    trailScore fixed (p::pairs) ≤
      keptWorth*(p::pairs).length-blockCost-((p::pairs).map (movedCost fixed)).sum := by
  induction pairs generalizing p with
  | nil =>
    simp only [trailScore,startCost_nil,length_singleton,map_cons,map_nil,sum_cons,sum_nil]
    omega
  | cons q pairs ih =>
    have hrest := ih q
    have hstart := (startCost_bounds p (q::pairs)).1
    rw [trailScore]
    simp only [length_cons,map_cons,sum_cons,cast_add,cast_one,mul_add,mul_one] at hrest ⊢
    omega

theorem sum_movedCost_nonneg (fixed : Int) (pairs : Pairs) :
    0≤(pairs.map (movedCost fixed)).sum := by
  induction pairs with
  | nil => simp
  | cons p pairs ih =>
    have := (movedCost_bounds fixed p).1
    simp only [map_cons,sum_cons]
    omega

theorem trailScore_pos (fixed : Int) (p : Nat × Nat) (pairs : Pairs) :
    0<trailScore fixed (p::pairs) := by
  induction pairs generalizing p with
  | nil =>
    have := movedCost_bounds fixed p
    simp only [trailScore,startCost_nil,keptWorth,blockCost]
    omega
  | cons q pairs ih =>
    have hrest := ih q
    have hmoved := movedCost_bounds fixed p
    have hstart := startCost_bounds p (q::pairs)
    rw [trailScore]
    simp only [keptWorth,blockCost] at hstart ⊢
    omega

theorem trailScore_straight {shift : Int} (hall : ∀ q∈p::pairs, shiftOf q=shift) :
    trailScore fixed (p::pairs) =
      keptWorth*(p::pairs).length-blockCost-(p::pairs).length*(if shift=fixed then 0 else 1) := by
  induction pairs generalizing p with
  | nil =>
    have hp : shiftOf p=shift := hall p (by simp)
    simp [trailScore,startCost_nil,movedCost,hp]
  | cons q pairs ih =>
    have hp : shiftOf p=shift := hall p (by simp)
    have hq : shiftOf q=shift := hall q (by simp)
    have hrest := ih fun other hother => hall other (mem_cons_of_mem _ hother)
    have hstart : startCost p (q::pairs)=0 := by simp [startCost,hp,hq]
    have hmoved : movedCost fixed p=if shift=fixed then 0 else 1 := by
      rw [movedCost,hp]
    rw [trailScore,hrest,hstart,hmoved]
    simp only [length_cons]
    push_cast
    ring

/-- The pairs a number names, followed back. -/
inductive Traces (found : List Match) : Nat → Pairs → Prop
  | nil : Traces found noPair []
  | cons {id : Nat} {pair : Match} {pairs : Pairs} : found[id]?=some pair →
      id≠noPair → (pair.prev=noPair ∨ pair.prev < id) → Traces found pair.prev pairs →
      Traces found id ((pair.old,pair.new)::pairs)

theorem Traces.append {id : Nat} (h : Traces found id pairs)
    (extra : List Match) : Traces (found++extra) id pairs := by
  induction h with
  | nil => exact .nil
  | cons hpair hid hprev _ ih =>
    refine .cons ?_ hid hprev ih
    rw [getElem?_append_left (List.getElem?_eq_some_iff.mp hpair).1]
    exact hpair

theorem Traces.eq_noPair {id : Nat} (h : Traces found id []) : id=noPair := by
  cases h
  rfl

theorem Traces.lt {id : Nat} (h : Traces found id pairs) : id=noPair ∨ id<found.length := by
  cases h with
  | nil => exact .inl rfl
  | cons hpair => exact .inr (List.getElem?_eq_some_iff.mp hpair).1

theorem Traces.traceBack {id fuel : Nat} (h : Traces found id pairs) (hfuel : id=noPair ∨ id<fuel) :
    traceBack found fuel id=pairs := by
  induction h generalizing fuel with
  | nil => cases fuel <;> simp [Terminal.traceBack]
  | cons hpair hid hprev _ ih =>
    obtain ⟨fuel,rfl⟩ : ∃ n, fuel=n+1 := ⟨fuel - 1,by omega⟩
    rw [Terminal.traceBack,if_neg hid,hpair]
    simp only
    rw [ih (hprev.imp_right (fun hlt' => by omega))]

/-- A cell holds a best common subsequence whose last pair is in a region, or none. -/
structure Tops (old new : List Nat) (kept : Nat → Nat → Bool) (fixed : Int) (found : List Match)
    (cell : Cell) (region : Nat × Nat → Prop) : Prop where
  traced : ∃ pairs, Traces found cell.2 pairs ∧ Trail old new kept pairs ∧
    cell.1≤trailScore fixed pairs ∧ ∀ p∈pairs.head?, region p
  bound : ∀ p pairs, Trail old new kept (p::pairs) → region p → trailScore fixed (p::pairs)≤cell.1
  nonneg : 0≤cell.1

section Tops

variable {cell other : Cell} {region region' : Nat × Nat → Prop}

theorem Trail.nil : Trail old new kept [] := ⟨List.Pairwise.nil,by simp⟩

theorem Trail.head (h : Trail old new kept (p::pairs)) :
    KeptPair old new kept p.1 p.2 := h.kept p (by simp)

theorem Trail.tail (h : Trail old new kept (p::pairs)) : Trail old new kept pairs :=
  ⟨(pairwise_cons.mp h.sorted).2,fun q hq => h.kept q (mem_cons_of_mem _ hq)⟩

theorem Trail.cons (h : Trail old new kept pairs) (hp : KeptPair old new kept p.1 p.2)
    (hlast : ∀ q∈pairs.head?, q.1<p.1 ∧ q.2<p.2) : Trail old new kept (p::pairs) := by
  refine ⟨pairwise_cons.mpr ⟨?_,h.sorted⟩,?_⟩
  · intro q hq
    cases pairs with
    | nil => cases hq
    | cons first pairs =>
      have hfirst := hlast first (by simp)
      obtain rfl | hq := mem_cons.mp hq
      · exact hfirst
      · have hless := (pairwise_cons.mp h.sorted).1 q hq
        exact ⟨hless.1.trans hfirst.1,hless.2.trans hfirst.2⟩
  · intro q hq
    obtain rfl | hq := mem_cons.mp hq
    · exact hp
    · exact h.kept q hq

theorem tops_noCell (h : ∀ p, KeptPair old new kept p.1 p.2 → ¬ region p) :
    Tops old new kept fixed found noCell region :=
  ⟨⟨[],.nil,.nil,by simp [noCell,trailScore],by simp⟩,
    fun p _ htrail hp => absurd hp (h p htrail.head),by simp [noCell]⟩

section

variable (h : Tops old new kept fixed found cell region)

include h

theorem Tops.append (extra : List Match) : Tops old new kept fixed (found++extra) cell region := by
  obtain ⟨pairs,htraces,hrest⟩ := h.traced
  exact ⟨⟨pairs,htraces.append extra,hrest⟩,h.bound,h.nonneg⟩

theorem Tops.congr (hiff : ∀ p, KeptPair old new kept p.1 p.2 → (region p ↔ region' p)) :
    Tops old new kept fixed found cell region' := by
  obtain ⟨pairs,htraces,htrail,hscore,hhead⟩ := h.traced
  refine ⟨⟨pairs,htraces,htrail,hscore,fun p hp => ?_⟩,fun p rest hrest hp => ?_,h.nonneg⟩
  · exact (hiff p (htrail.kept p (mem_of_mem_head? hp))).mp (hhead p hp)
  · exact h.bound p rest hrest ((hiff p hrest.head).mpr hp)

theorem Tops.max (h' : Tops old new kept fixed found other region') :
    Tops old new kept fixed found (if cell.1<other.1 then other else cell)
      fun p => region p ∨ region' p := by
  obtain ⟨pairs,htraces,htrail,hscore,hhead⟩ := h.traced
  obtain ⟨pairs',htraces',htrail',hscore',hhead'⟩ := h'.traced
  split
  next hlt =>
    refine ⟨⟨pairs',htraces',htrail',hscore',fun p hp => .inr (hhead' p hp)⟩,?_,h'.nonneg⟩
    rintro p rest hrest (hp | hp)
    · exact (h.bound p rest hrest hp).trans hlt.le
    · exact h'.bound p rest hrest hp
  next hge =>
    refine ⟨⟨pairs,htraces,htrail,hscore,fun p hp => .inl (hhead p hp)⟩,?_,h.nonneg⟩
    rintro p rest hrest (hp | hp)
    · exact h.bound p rest hrest hp
    · exact (h'.bound p rest hrest hp).trans (not_lt.mp hge)

theorem Tops.named {p : Nat × Nat}
    (htrail : Trail old new kept (p::pairs)) (hp : region p) : cell.2≠noPair := by
  intro hnone
  obtain ⟨pairs',htraces,-,hscore,-⟩ := h.traced
  rw [hnone] at htraces
  have hpos := trailScore_pos fixed p pairs
  have hle := h.bound p pairs htrail hp
  cases htraces with
  | nil =>
    rw [trailScore] at hscore
    omega
  | cons _ hid => exact hid rfl

end

/-- No common subsequence is so long that its score leaves 64 bits. -/
def Short (old new : List Nat) (kept : Nat → Nat → Bool) : Prop :=
  ∀ pairs, Trail old new kept pairs → pairs.length≤2^21

theorem saturate_of_le (score : Int) (hlow : -2^63 ≤ score) (hhigh : score≤2^63-1) :
    saturate score=score := by
  unfold saturate
  omega

theorem saturate_index {index : Nat} (h : index<2^63) : saturate index=index :=
  saturate_of_le _ (by omega) (by omega)

theorem trailScore_fits (fixed : Int) (hshort : Short old new kept)
    (h : Trail old new kept (p::pairs)) : trailScore fixed pairs+keptWorth≤2^63-1 := by
  have hlen := hshort _ h
  cases pairs with
  | nil => simp [trailScore,keptWorth]
  | cons q pairs =>
    have hle := trailScore_le fixed q pairs
    have hmoved := sum_movedCost_nonneg fixed (q::pairs)
    simp only [length_cons,keptWorth,blockCost] at hlen hle ⊢
    omega

/-- A row kept after a cell's best adds its worth without saturating. -/
theorem Tops.fits (hshort : Short old new kept) (hp : KeptPair old new kept p.1 p.2)
    (h : Tops old new kept fixed found cell region) (hless : ∀ q, region q → q.1<p.1 ∧ q.2<p.2) :
    0≤cell.1 ∧ cell.1+keptWorth≤2^63-1 := by
  obtain ⟨pairs,-,htrail,hscore,hhead⟩ := h.traced
  have hfits := trailScore_fits fixed hshort (htrail.cons hp fun q hq => hless q (hhead q hq))
  exact ⟨h.nonneg,by omega⟩

/-- The pair of a kept cell: it goes on with the best run of its shift, or after the best pair above
and to the left of it. -/
theorem Tops.pair {diagonal run : Cell} {fresh continued score : Int} {prev : Nat}
    (hshort : Short old new kept) (hp : KeptPair old new kept p.1 p.2)
    (hlen : found.length<noPair)
    (hdiagonal : Tops old new kept fixed found diagonal fun q => q.1<p.1 ∧ q.2<p.2)
    (hrun : Tops old new kept fixed found run fun q => shiftOf q=shiftOf p ∧ q.1<p.1 ∧ q.2<p.2)
    (hfresh : saturate (saturate (saturate (diagonal.1+keptWorth)-blockCost) -
      movedCost fixed p)=fresh)
    (hcontinued : saturate (saturate (run.1+keptWorth)-movedCost fixed p)=continued)
    (hscore : (if run.2≠noPair ∧ fresh<continued then continued else fresh)=score)
    (hprev : (if run.2≠noPair ∧ fresh<continued then run.2 else diagonal.2)=prev) :
    Tops old new kept fixed (found++[⟨p.1,p.2,prev⟩]) (score,min found.length noPair)
      fun q => q=p := by
  obtain ⟨hdlow,hdhigh⟩ := hdiagonal.fits hshort hp fun _ hq => hq
  obtain ⟨hrlow,hrhigh⟩ := hrun.fits hshort hp fun _ hq => hq.2
  have hmoved := movedCost_bounds fixed p
  have hblock : blockCost=2^21 := rfl
  have hworth : keptWorth=2^42 := rfl
  have hfresh : fresh=diagonal.1+keptWorth-blockCost-movedCost fixed p := by
    rw [← hfresh,saturate_of_le (diagonal.1+keptWorth) (by omega) hdhigh,
      saturate_of_le (diagonal.1+keptWorth-blockCost) (by omega) (by omega),
      saturate_of_le _ (by omega) (by omega)]
  have hcontinued : continued=run.1+keptWorth-movedCost fixed p := by
    rw [← hcontinued,saturate_of_le (run.1+keptWorth) (by omega) hrhigh,
      saturate_of_le _ (by omega) (by omega)]
  have hid : min found.length noPair=found.length := min_eq_left hlen.le
  have hlast : (found++[(⟨p.1,p.2,prev⟩ : Match)])[found.length]?=some ⟨p.1,p.2,prev⟩ := by
    simp
  refine ⟨?_,?_,by simp only; omega⟩
  · rw [hid]
    split at hprev
    next hgoes =>
      obtain ⟨pairs,htraces,htrail,hworst,hhead⟩ := hrun.traced
      subst hprev
      refine ⟨p::pairs,.cons hlast hlen.ne htraces.lt (htraces.append _),
        htrail.cons hp fun q hq => (hhead q hq).2,?_,by simp⟩
      cases pairs with
      | nil => exact absurd htraces.eq_noPair hgoes.1
      | cons q pairs =>
        have hstart : startCost p (q::pairs)=0 :=
          if_pos (congrArg some (hhead q rfl).1)
        rw [trailScore,hstart]
        omega
    next hgoes =>
      obtain ⟨pairs,htraces,htrail,hworst,hhead⟩ := hdiagonal.traced
      subst hprev
      refine ⟨p::pairs,.cons hlast hlen.ne htraces.lt (htraces.append _),
        htrail.cons hp hhead,?_,by simp⟩
      have hstart := (startCost_bounds p pairs).2
      rw [trailScore]
      omega
  · rintro q pairs htrail rfl
    cases pairs with
    | nil =>
      rw [trailScore,startCost_nil,trailScore]
      omega
    | cons r pairs =>
      have hless := (pairwise_cons.mp htrail.sorted).1 r (by simp)
      rw [trailScore,startCost]
      split
      next hsame =>
        have hsame : shiftOf r=shiftOf q := some.inj hsame
        have hle := hrun.bound r pairs htrail.tail ⟨hsame,hless⟩
        have hnamed := hrun.named htrail.tail ⟨hsame,hless⟩
        omega
      · have hle := hdiagonal.bound r pairs htrail.tail hless
        omega

end Tops

def keptCells (kept : Nat → Bool) (j : Nat) : Nat := (List.range j).countP kept

variable (kept)

def keptRowCells (width i : Nat) : Nat :=
  ((List.range i).map fun i => keptCells (kept i) width).sum

/-- The row under way, after the cells of the first `j` new rows, holds the best so far. -/
structure BestRow (old new : List Nat) (kept : Nat → Nat → Bool) (low fixed : Int)
    (oldIndex j : Nat) (s : Sweep) : Prop where
  count : s.here.length=j
  left : Tops old new kept fixed s.found s.left (fun p => p.1≤oldIndex ∧ p.2∈new.take j)
  here : ∀ (index : Nat) (cell : Cell), s.here[index]?=some cell →
    Tops old new kept fixed s.found cell (fun p => p.1≤oldIndex ∧ p.2∈new.take (index+1))
  same : ∀ (slot : Nat) (cell : Cell), s.same[slot]?=some cell →
    Tops old new kept fixed s.found cell fun p => shiftOf p=slot+low ∧
      (p.1<oldIndex ∨ p.1=oldIndex ∧ p.2∈new.take j)

def BestAbove (old new : List Nat) (kept : Nat → Nat → Bool) (fixed : Int) (oldIndex : Nat)
    (above : List Cell) (found : List Match) : Prop :=
  ∀ (index : Nat) (cell : Cell), above[index]?=some cell →
    Tops old new kept fixed found cell fun p => p.1<oldIndex ∧ p.2∈new.take (index+1)

section BestCells

variable {kept} {low : Int} {oldIndex newIndex i j : Nat} {above : List Cell} {s : Sweep}
  {items : List Nat}

theorem mem_take_succ_iff {j n m : Nat} (h : items[j]?=some n) :
    m∈items.take (j+1) ↔ m∈items.take j ∨ m=n := by
  rw [take_add_one,h]
  simp

theorem sorted_index {i j n : Nat} (hsorted : Rising items)
    (hi : items[i]?=some n) (hj : items[j]?=some n) : i=j := by
  have hnodup : items.Nodup := hsorted.imp fun h => h.ne
  exact (getElem?_inj (List.getElem?_eq_some_iff.mp hi).1 hnodup).mp (hi.trans hj.symm)

theorem mem_take_iff_lt {i n m : Nat} (hsorted : Rising items)
    (hn : items[i]?=some n) (hm : m∈items) : m∈items.take i ↔ m<n := by
  refine ⟨fun h => lt_of_mem_take hsorted h hn,fun hlt => ?_⟩
  obtain ⟨j,hj⟩ := getElem?_of_mem hm
  obtain ⟨hltj,hgetj⟩ := List.getElem?_eq_some_iff.mp hj
  obtain ⟨hlti,hgeti⟩ := List.getElem?_eq_some_iff.mp hn
  refine mem_take_iff_getElem.mpr ⟨j,?_,hgetj⟩
  by_contra hge
  have hle : i≤j := by omega
  obtain rfl | hij := hle.eq_or_lt
  · omega
  · exact absurd (pairwise_iff_getElem.mp hsorted i j hlti hltj hij) (by omega)

theorem keptPair_cell (hsortedOld : Rising old) (hsorted : Rising new)
    (hold : old[i]?=some oldIndex) (hnew : new[j]?=some newIndex)
    (h : KeptPair old new kept oldIndex newIndex) : kept i j=true := by
  obtain ⟨i',j',hold',hnew',hkept⟩ := h
  obtain rfl := sorted_index hsortedOld hold hold'
  obtain rfl := sorted_index hsorted hnew hnew'
  exact hkept

theorem getD_of_lt {cells : List Cell} {index : Nat} (h : index<cells.length) :
    cells[index]?=some (cells.getD index noCell) := by
  rw [getD_eq_getElem?_getD,getElem?_eq_getElem h]
  rfl

theorem BestRow.next {s' : Sweep} {best : Cell} (extra : List Match)
    (hbest : BestRow old new kept low fixed oldIndex j s)
    (hfound : s'.found=s.found++extra) (hleft : s'.left=best)
    (hhere : s'.here=s.here++[best])
    (htops : Tops old new kept fixed s'.found best fun p => p.1≤oldIndex ∧ p.2∈new.take (j+1))
    (hsame : ∀ (slot : Nat) (cell : Cell), s'.same[slot]?=some cell →
      Tops old new kept fixed s'.found cell fun p => shiftOf p=slot+low ∧
        (p.1<oldIndex ∨ p.1=oldIndex ∧ p.2∈new.take (j+1))) :
    BestRow old new kept low fixed oldIndex (j+1) s' := by
  refine ⟨by rw [hhere,length_append,hbest.count,length_singleton],hleft ▸ htops,?_,hsame⟩
  intro index cell hcell
  rw [hhere] at hcell
  obtain ⟨_,hcell⟩ | ⟨rfl,rfl⟩ := getElem?_snoc hcell
  · rw [hfound]
    exact (hbest.here index cell hcell).append extra
  · rw [hbest.count]
    exact htops

theorem own_or_earlier {p : Nat × Nat} (hnew : new[j]?=some newIndex) :
    (p.1<oldIndex ∨ p.1=oldIndex ∧ p.2∈new.take (j+1)) ↔
      (p.1<oldIndex ∨ p.1=oldIndex ∧ p.2∈new.take j) ∨ p=(oldIndex,newIndex) := by
  rw [mem_take_succ_iff hnew,Prod.ext_iff]
  tauto

theorem BestRow.runs (pair : Cell) (extra : List Match) (hnew : new[j]?=some newIndex)
    (hlow : low≤(newIndex : Int)-oldIndex)
    (hslot : ((newIndex : Int)-oldIndex-low).toNat<s.same.length)
    (hbest : BestRow old new kept low fixed oldIndex j s)
    (hpair : Tops old new kept fixed (s.found++extra) pair fun q => q=(oldIndex,newIndex))
    {slot : Nat} {cell : Cell}
    (hcell : (if (s.same.getD ((newIndex : Int)-oldIndex-low).toNat noCell).1<pair.1 then
      s.same.set ((newIndex : Int)-oldIndex-low).toNat pair else s.same)[slot]?=some cell) :
    Tops old new kept fixed (s.found++extra) cell fun p => shiftOf p=slot+low ∧
      (p.1<oldIndex ∨ p.1=oldIndex ∧ p.2∈new.take (j+1)) := by
  have hshift : shiftOf (oldIndex,newIndex)=(((newIndex : Int)-oldIndex-low).toNat : Nat)+low := by
    simp only [shiftOf]
    omega
  generalize ((newIndex : Int)-oldIndex-low).toNat=own at hslot hcell hshift
  by_cases hother : own=slot
  · subst hother
    have hrun := hbest.same own _ (getD_of_lt hslot)
    have hcell : (if (s.same.getD own noCell).1<pair.1 then pair
        else s.same.getD own noCell)=cell := by
      split
      next hlt =>
        rw [if_pos hlt,getElem?_set_self hslot] at hcell
        exact some.inj hcell
      next hge =>
        rw [if_neg hge,getD_of_lt hslot] at hcell
        exact some.inj hcell
    rw [← hcell]
    refine ((hrun.append extra).max hpair).congr fun p _ => ?_
    rw [own_or_earlier hnew]
    constructor
    · rintro (h | rfl)
      · exact ⟨h.1,.inl h.2⟩
      · exact ⟨hshift,.inr rfl⟩
    · rintro ⟨hp,h | h⟩
      · exact .inl ⟨hp,h⟩
      · exact .inr h
  · have hcell : s.same[slot]?=some cell := by
      split at hcell
      · rwa [getElem?_set_ne hother] at hcell
      · exact hcell
    refine ((hbest.same slot cell hcell).append extra).congr fun p _ => ?_
    rw [own_or_earlier hnew]
    refine and_congr_right fun hp => ⟨.inl,fun h => h.resolve_right ?_⟩
    rintro rfl
    exact hother (by omega)

variable (hnew : new[j]?=some newIndex) (hsorted : Rising new)

include hnew hsorted

theorem BestRow.best (hlen : j<above.length) (hbest : BestRow old new kept low fixed oldIndex j s)
    (habove : BestAbove old new kept fixed oldIndex above s.found) :
    Tops old new kept fixed s.found
      (if (above.getD j noCell).1<s.left.1 then s.left else above.getD j noCell)
      fun p => p≠(oldIndex,newIndex) ∧ p.1≤oldIndex ∧ p.2∈new.take (j+1) := by
  refine ((habove j _ (getD_of_lt hlen)).max hbest.left).congr fun p _ => ?_
  have hless : p.2∈new.take j → p.2<newIndex := fun h => lt_of_mem_take hsorted h hnew
  rw [mem_take_succ_iff hnew,Ne,Prod.ext_iff]
  constructor
  · rintro (⟨hlt,hmem⟩ | ⟨hle,hmem⟩)
    · exact ⟨by omega,by omega,hmem⟩
    · exact ⟨by have := hless hmem; omega,hle,.inl hmem⟩
  · rintro ⟨hne,hle,hmem | heq⟩
    · exact .inr ⟨hle,hmem⟩
    · exact .inl ⟨by omega,.inr heq⟩

theorem BestAbove.diagonal (hlen : j<above.length)
    (habove : BestAbove old new kept fixed oldIndex above s.found) :
    Tops old new kept fixed s.found (if j=0 then noCell else above.getD (j-1) noCell)
      fun p => p.1<oldIndex ∧ p.2<newIndex := by
  have hmem {p : Nat × Nat} (hp : KeptPair old new kept p.1 p.2) :
      p.2∈new.take j ↔ p.2<newIndex := by
    obtain ⟨-,j',-,hnew',-⟩ := hp
    exact mem_take_iff_lt hsorted hnew (mem_of_getElem? hnew')
  split
  next hj =>
    subst hj
    exact tops_noCell fun p hp h => by simpa using (hmem hp).mpr h.2
  next hj =>
    refine (habove (j-1) _ (getD_of_lt (by omega))).congr fun p hp => ?_
    rw [Nat.sub_add_cancel (Nat.one_le_iff_ne_zero.mpr hj),hmem hp]

theorem BestRow.run (hlow : low≤(newIndex : Int)-oldIndex)
    (hslot : ((newIndex : Int)-oldIndex-low).toNat<s.same.length)
    (hbest : BestRow old new kept low fixed oldIndex j s) :
    Tops old new kept fixed s.found (s.same.getD ((newIndex : Int)-oldIndex-low).toNat noCell)
      fun p => shiftOf p=shiftOf (oldIndex,newIndex) ∧ p.1<oldIndex ∧ p.2<newIndex := by
  refine (hbest.same _ _ (getD_of_lt hslot)).congr fun p _ => ?_
  have hless : p.2∈new.take j → p.2<newIndex := fun h => lt_of_mem_take hsorted h hnew
  simp only [shiftOf]
  constructor
  · rintro ⟨hshift,hlt | ⟨heq,hmem⟩⟩
    · omega
    · have := hless hmem
      omega
  · rintro ⟨hshift,hlt,-⟩
    exact ⟨by omega,.inl hlt⟩

theorem BestRow.cell (hshort : Short old new kept) (hsortedOld : Rising old)
    (hold : old[i]?=some oldIndex) (hlow : low≤(newIndex : Int)-oldIndex)
    (hslot : ((newIndex : Int)-oldIndex-low).toNat<s.same.length)
    (hlen : j<above.length) (hfew : kept i j=true → s.found.length<noPair)
    (hbest : BestRow old new kept low fixed oldIndex j s)
    (habove : BestAbove old new kept fixed oldIndex above s.found) :
    BestRow old new kept low fixed oldIndex (j+1)
        (s.cell id low fixed oldIndex above (kept i j) newIndex j) ∧
      BestAbove old new kept fixed oldIndex above
        (s.cell id low fixed oldIndex above (kept i j) newIndex j).found := by
  have htops := hbest.best hnew hsorted hlen habove
  have hdiagonal := habove.diagonal hnew hsorted hlen
  have hrun := hbest.run hnew hsorted hlow hslot
  simp only [Sweep.cell,id_eq]
  split
  next hkept =>
    have hp : KeptPair old new kept oldIndex newIndex := ⟨i,j,hold,hnew,hkept⟩
    have hmoved : movedCost fixed (oldIndex,newIndex) =
        if (newIndex : Int)-oldIndex=fixed then 0 else 1 := rfl
    rw [← hmoved]
    have hruns := fun pair extra => hbest.runs pair extra hnew hlow hslot
    generalize (if j=0 then noCell else above.getD (j-1) noCell)=diagonal at hdiagonal ⊢
    generalize s.same.getD ((newIndex : Int)-oldIndex-low).toNat noCell=run at hrun hruns ⊢
    generalize hfresh : saturate (saturate (saturate (diagonal.1+keptWorth)-blockCost) -
      movedCost fixed (oldIndex,newIndex))=fresh
    generalize hcontinued : saturate (saturate (run.1+keptWorth) -
      movedCost fixed (oldIndex,newIndex))=continued
    generalize hscore : (if run.2≠noPair ∧ fresh<continued then continued else fresh)=score
    generalize hprev : (if run.2≠noPair ∧ fresh<continued then run.2 else diagonal.2)=prev
    have hpair := Tops.pair hshort hp (hfew hkept) hdiagonal hrun hfresh hcontinued hscore hprev
    refine ⟨hbest.next [⟨oldIndex,newIndex,prev⟩] rfl rfl rfl ?_
        fun _ _ hcell => hruns _ _ hpair hcell,
      fun index cell hcell => (habove index cell hcell).append _⟩
    refine ((htops.append _).max hpair).congr fun p _ => ?_
    constructor
    · rintro (h | rfl)
      · exact h.2
      · exact ⟨le_rfl,mem_take_of_getElem? hnew⟩
    · intro h
      by_cases heq : p=(oldIndex,newIndex)
      · exact .inr heq
      · exact .inl ⟨heq,h⟩
  next hkept =>
    have hnot : ¬ KeptPair old new kept oldIndex newIndex := fun h =>
      hkept (keptPair_cell hsortedOld hsorted hold hnew h)
    refine ⟨hbest.next [] (by simp) rfl rfl ?_ ?_,habove⟩
    · refine htops.congr (fun p hp => ⟨fun h => h.2,fun h => ⟨?_,h⟩⟩)
      rintro rfl
      exact hnot hp
    · intro slot cell hcell
      refine (hbest.same slot cell hcell).congr fun p hp => ?_
      rw [own_or_earlier hnew]
      refine and_congr_right fun _ => ⟨.inl,fun h => h.resolve_right ?_⟩
      rintro rfl
      exact hnot hp

end BestCells

theorem keptCells_succ (kept : Nat → Bool) (j : Nat) :
    keptCells kept (j+1)=keptCells kept j+if kept j then 1 else 0 := by
  rw [keptCells,keptCells,range_succ,countP_append,countP_singleton]

theorem keptCells_mono (kept : Nat → Bool) {j k : Nat} (h : j≤k) :
    keptCells kept j≤keptCells kept k :=
  (range_sublist.mpr h).countP_le

theorem keptRowCells_succ (width i : Nat) :
    keptRowCells kept width (i+1)=keptRowCells kept width i+keptCells (kept i) width := by
  rw [keptRowCells,keptRowCells,range_succ,map_append,sum_append_nat]
  simp

theorem keptRowCells_mono (width : Nat) {i k : Nat} (h : i≤k) :
    keptRowCells kept width i≤keptRowCells kept width k := by
  induction h with
  | refl => exact le_rfl
  | step _ ih =>
    rw [keptRowCells_succ]
    omega

/-- The rows swept so far hold the best of the first `i` old rows. -/
structure BestRows (old new : List Nat) (kept : Nat → Nat → Bool) (low fixed : Int) (span i : Nat)
    (s : Sweep) : Prop where
  width : s.here.length=new.length
  slots : s.same.length=span
  count : s.found.length=keptRowCells kept new.length i
  here : ∀ (index : Nat) (cell : Cell), s.here[index]?=some cell →
    Tops old new kept fixed s.found cell (fun p => p.1∈old.take i ∧ p.2∈new.take (index+1))
  same : ∀ (slot : Nat) (cell : Cell), s.same[slot]?=some cell →
    Tops old new kept fixed s.found cell fun p => shiftOf p=slot+low ∧ p.1∈old.take i

section BestSweep

variable {kept} {low shift : Int} {span oldIndex i : Nat} {s : Sweep}

theorem length_cell (s : Sweep) (low fixed : Int) (oldIndex : Nat) (above : List Cell)
    (kept : Bool) (newIndex j : Nat) :
    (s.cell id low fixed oldIndex above kept newIndex j).same.length=s.same.length ∧
      (s.cell id low fixed oldIndex above kept newIndex j).found.length =
        s.found.length+if kept then 1 else 0 := by
  simp only [Sweep.cell,id_eq]
  cases kept with
  | false => simp
  | true =>
    refine ⟨?_,by simp⟩
    simp only [if_true]
    rw [apply_ite List.length,length_set,ite_self]

theorem Trail.nodup (h : Trail old new kept pairs) : pairs.Nodup := by
  refine h.sorted.imp fun {p q} hless heq => ?_
  rw [heq] at hless
  exact lt_irrefl _ hless.1

theorem Trail.length_le (h : Trail old new kept pairs) : pairs.length≤new.length := by
  have hnodup : (pairs.map (·.2)).Nodup :=
    pairwise_map.mpr (h.sorted.imp fun {p q} hless => hless.2.ne')
  have hsub : pairs.map (·.2)⊆new := by
    intro n hn
    obtain ⟨p,hp,rfl⟩ := mem_map.mp hn
    obtain ⟨_,_,-,hnew,-⟩ := h.kept p hp
    exact mem_of_getElem? hnew
  simpa using (subperm_of_subset hnodup hsub).length_le

/-- Of two common subsequences of one shift the longer is worth more. -/
theorem trailScore_lt_of_straight {other : Pairs}
    (hpairs : ∀ p∈pairs, shiftOf p=shift) (hother : ∀ p∈other, shiftOf p=shift)
    (hlt : pairs.length<other.length) : trailScore fixed pairs<trailScore fixed other := by
  cases other with
  | nil => simp at hlt
  | cons q other =>
    cases pairs with
    | nil => exact trailScore_pos fixed q other
    | cons p pairs =>
      rw [trailScore_straight hpairs,trailScore_straight hother]
      simp only [keptWorth]
      split <;> omega

variable (hshort : Short old new kept) (hsortedOld : Rising old)
  (hsorted : Rising new)

include hshort hsortedOld hsorted

theorem BestRows.row (hold : old[i]?=some oldIndex)
    (hslots : ∀ n∈new, low≤(n : Int)-oldIndex ∧ ((n : Int)-oldIndex-low).toNat<span)
    (hfew : keptRowCells kept new.length (i+1)≤noPair)
    (h : BestRows old new kept low fixed span i s) :
    BestRows old new kept low fixed span (i+1)
      (sweepRow id new (kept i) low fixed oldIndex s.here s.same s.found) := by
  have hbefore {p : Nat × Nat} (hp : KeptPair old new kept p.1 p.2) :
      p.1∈old.take i ↔ p.1<oldIndex := by
    obtain ⟨i',-,hold',-⟩ := hp
    exact mem_take_iff_lt hsortedOld hold (mem_of_getElem? hold')
  have hupto {p : Nat × Nat} (hp : KeptPair old new kept p.1 p.2) :
      p.1∈old.take (i+1) ↔ p.1≤oldIndex := by
    rw [mem_take_succ_iff hold,hbefore hp]
    omega
  have hstart : BestRow old new kept low fixed oldIndex 0 ⟨noCell,[],s.same,s.found⟩ := by
    refine ⟨rfl,tops_noCell (fun p _ hp => by simpa using hp.2),fun index cell hcell => ?_,?_⟩
    · simp at hcell
    intro slot cell hcell
    refine (h.same slot cell hcell).congr fun p hp => ?_
    rw [hbefore hp]
    simp
  have habove : BestAbove old new kept fixed oldIndex s.here s.found := by
    intro index cell hcell
    refine (h.here index cell hcell).congr fun p hp => ?_
    rw [hbefore hp]
  obtain ⟨hbest,-,hsame,hfound⟩ := foldl_zipIdx_invariant
    (fun j s' => BestRow old new kept low fixed oldIndex j s' ∧
      BestAbove old new kept fixed oldIndex s.here s'.found ∧ s'.same.length=span ∧
      s'.found.length=keptRowCells kept new.length i+keptCells (kept i) j)
    (f := fun s' p => s'.cell id low fixed oldIndex s.here (kept i p.2) p.1 p.2)
    new ⟨hstart,habove,h.slots,by simpa [keptCells] using h.count⟩ (by
      rintro j newIndex s' hnew ⟨hbest,habove,hsame,hfound⟩
      obtain ⟨hlow,hslot⟩ := hslots newIndex (mem_of_getElem? hnew)
      have hlt := (List.getElem?_eq_some_iff.mp hnew).1
      have hroom : kept i j=true → s'.found.length<noPair := by
        intro hkept
        have hle := keptCells_mono (kept i) (succ_le_of_lt hlt)
        rw [keptCells_succ,hkept,if_pos rfl] at hle
        rw [keptRowCells_succ] at hfew
        omega
      obtain ⟨hbest',habove'⟩ := hbest.cell hnew hsorted hshort hsortedOld hold hlow
        (hsame ▸ hslot) (h.width ▸ hlt) hroom habove
      obtain ⟨hsame',hfound'⟩ := length_cell s' low fixed oldIndex s.here (kept i j) newIndex j
      exact ⟨hbest',habove',hsame'.trans hsame,by rw [hfound',hfound,keptCells_succ,add_assoc]⟩)
  refine ⟨hbest.count,hsame,by rw [keptRowCells_succ]; exact hfound,?_,?_⟩
  · intro index cell hcell
    exact (hbest.here index cell hcell).congr fun p hp => by rw [hupto hp]
  intro slot cell hcell
  refine (hbest.same slot cell hcell).congr fun p hp => ?_
  rw [hupto hp,take_length]
  refine and_congr_right fun _ => ?_
  obtain ⟨-,j,-,hnew,-⟩ := hp
  have hmem := mem_of_getElem? hnew
  constructor
  · rintro (hlt | ⟨heq,-⟩) <;> omega
  intro hle
  obtain hlt | heq := hle.lt_or_eq
  · exact .inl hlt
  · exact .inr ⟨heq,hmem⟩

theorem sweepRows_best (fixed : Int)
    (hslots : ∀ o∈old, ∀ n∈new, low≤(n : Int)-o ∧ ((n : Int)-o-low).toNat<span)
    (hfew : keptRowCells kept new.length old.length≤noPair) :
    BestRows old new kept low fixed span old.length
      (sweepRows id old new kept low fixed (List.replicate span noCell)) := by
  have hempty {count index : Nat} {cell : Cell} {region : Nat × Nat → Prop}
      (h : (List.replicate count noCell)[index]?=some cell)
      (hregion : ∀ p, ¬ region p) : Tops old new kept fixed [] cell region := by
    rw [eq_of_mem_replicate (mem_of_getElem? h)]
    exact tops_noCell fun p _ => hregion p
  have hstart : BestRows old new kept low fixed span 0
      ⟨noCell,List.replicate new.length noCell,List.replicate span noCell,[]⟩ :=
    ⟨by simp,by simp,by simp [keptRowCells],fun _ _ h => hempty h (by simp),
      fun _ _ h => hempty h (by simp)⟩
  exact foldl_zipIdx_invariant (fun i s => BestRows old new kept low fixed span i s)
    old hstart fun i oldIndex s hold hinv => hinv.row hshort hsortedOld hsorted hold
      (hslots oldIndex (mem_of_getElem? hold))
      ((keptRowCells_mono kept new.length (List.getElem?_eq_some_iff.mp hold).1).trans hfew)

/-- The rows kept are a common subsequence of the best score. -/
theorem keepPlaces_optimal (hfew : keptRowCells kept new.length old.length≤noPair)
    (h : Trail old new kept pairs) :
    trailScore fixed pairs≤trailScore fixed (keepPlaces old new kept fixed).reverse := by
  simp only [keepPlaces,keepBy,id_eq]
  split
  next firstOld lastOld firstNew lastNew hfirst hlast hfirst' hlast' =>
    have hbest := sweepRows_best hshort hsortedOld hsorted fixed
      (shift_slots hsortedOld hsorted hfirst hlast hfirst' hlast') hfew
    generalize sweepRows id old new kept _ fixed _=s at hbest
    have hpos : 0<new.length := length_pos_of_mem (mem_of_mem_head? hfirst')
    have hcell : s.here[new.length-1]?=some (s.here.getD (new.length-1) noCell) :=
      getD_of_lt (by rw [hbest.width]; omega)
    have htops := hbest.here _ _ hcell
    rw [getLast?_eq_getElem?,hbest.width,hcell,map_some,getD_some]
    obtain ⟨best,htraces,-,hscore,-⟩ := htops.traced
    rw [reverse_reverse,htraces.traceBack htraces.lt]
    refine le_trans ?_ hscore
    cases pairs with
    | nil => exact htops.nonneg
    | cons p pairs =>
      obtain ⟨i,j,hold,hnew,-⟩ := h.head
      refine htops.bound p pairs h ?_
      rw [Nat.sub_add_cancel hpos,take_length,take_length]
      exact ⟨mem_of_getElem? hold,mem_of_getElem? hnew⟩
  next hnone =>
    cases pairs with
    | nil => exact le_rfl
    | cons p pairs =>
      obtain ⟨i,j,hold,hnew,-⟩ := h.head
      cases old with
      | nil => simp at hold
      | cons first old =>
        cases new with
        | nil => simp at hnew
        | cons first' new =>
          exact (hnone _ _ _ _ rfl (getLast?_eq_some_getLast (by simp)) rfl
            (getLast?_eq_some_getLast (by simp))).elim

omit hshort in
theorem keepPlaces_trail : Trail old new kept (keepPlaces old new kept fixed).reverse :=
  ⟨pairwise_reverse.mpr (keepPlaces_sound hsortedOld hsorted).1,
    fun p hp => (keepPlaces_sound hsortedOld hsorted).2 p (mem_reverse.mp hp)⟩

theorem keepPlaces_eq_of_straight {full : Pairs}
    (hfew : keptRowCells kept new.length old.length≤noPair) (hfull : Trail old new kept full)
    (hall : ∀ p : Nat × Nat, KeptPair old new kept p.1 p.2 → p∈full)
    (hstraight : ∀ p∈full, shiftOf p=shift) : keepPlaces old new kept fixed=full.reverse := by
  have htrail : Trail old new kept (keepPlaces old new kept fixed).reverse :=
    keepPlaces_trail hsortedOld hsorted
  have hsub : (keepPlaces old new kept fixed).reverse⊆full := fun p hp => hall p (htrail.kept p hp)
  have hlen : full.length≤(keepPlaces old new kept fixed).reverse.length := by
    by_contra hlt
    have hworse : trailScore fixed (keepPlaces old new kept fixed).reverse<trailScore fixed full :=
      trailScore_lt_of_straight (fun p hp => hstraight p (hsub hp)) hstraight (not_le.mp hlt)
    exact absurd (keepPlaces_optimal hshort hsortedOld hsorted hfew hfull) (not_le.mpr hworse)
  have hperm := (subperm_of_subset htrail.nodup hsub).perm_of_length_le hlen
  have heq : (keepPlaces old new kept fixed).reverse=full := by
    refine hperm.eq_of_pairwise ?_ htrail.sorted hfull.sorted
    intro p q _ _ hless hless'
    omega
  rw [← heq,reverse_reverse]

end BestSweep

end Verbatim.Terminal
