import Verbatim.Terminal.Optimal

namespace Verbatim.Terminal

open Framework List Nat

def blocks : Pairs → Nat
  | [] => 0
  | p::pairs => (if pairs.head?.map shiftOf=some (shiftOf p) then 0 else 1)+blocks pairs

def movedPairs (fixed : Int) (pairs : Pairs) : Nat :=
  pairs.countP fun p => shiftOf p≠fixed

variable (pairs : Pairs)

theorem blocks_concat (p : Nat × Nat) :
    blocks (pairs++[p]) =
      blocks pairs+if pairs.getLast?.map shiftOf=some (shiftOf p) then 0 else 1 := by
  induction pairs with
  | nil => rfl
  | cons q pairs ih =>
    cases pairs with
    | nil => simp [blocks,eq_comm,add_comm]
    | cons r pairs =>
      have hcons : blocks (q::r::pairs) =
          (if some (shiftOf r)=some (shiftOf q) then 0 else 1)+blocks (r::pairs) := rfl
      rw [hcons,cons_append,blocks,ih,getLast?_cons_cons,add_assoc]
      rfl

theorem blocks_reverse : blocks pairs.reverse=blocks pairs := by
  induction pairs with
  | nil => rfl
  | cons p pairs ih =>
    rw [reverse_cons,blocks_concat,ih,getLast?_reverse,blocks,add_comm]

theorem blocks_le_length : blocks pairs≤pairs.length := by
  induction pairs with
  | nil => exact le_rfl
  | cons p pairs ih =>
    rw [blocks,length_cons]
    split <;> omega

theorem trailScore_eq (fixed : Int) (pairs : Pairs) :
    trailScore fixed pairs =
      keptWorth*pairs.length-blockCost*blocks pairs-movedPairs fixed pairs := by
  induction pairs with
  | nil => rfl
  | cons p pairs ih =>
    have hstart : startCost p pairs =
        blockCost*((if pairs.head?.map shiftOf=some (shiftOf p) then 0 else 1 : Nat) : Int) := by
      unfold startCost
      split <;> simp
    have hmoved : (movedPairs fixed (p::pairs) : Int)=movedPairs fixed pairs+movedCost fixed p := by
      unfold movedPairs movedCost
      by_cases h : shiftOf p=fixed <;> simp [h]
    rw [trailScore,ih,hstart,hmoved,blocks,length_cons]
    push_cast
    ring

section Indices

variable {old new : List Nat} {kept : Nat → Nat → Bool} {low fixed : Int}

theorem Sweep.cell_saturate {oldIndex newIndex : Nat} (hold : oldIndex<2^63) (hnew : newIndex<2^63)
    (hlow : low≤(newIndex : Int)-oldIndex) (hslot : (newIndex : Int)-oldIndex-low<2^63)
    (above : List Cell) (kept : Bool) (j : Nat) (s : Sweep) :
    s.cell saturate low fixed oldIndex above kept newIndex j =
      s.cell id low fixed oldIndex above kept newIndex j := by
  have hshift : saturate ((newIndex : Int)-oldIndex)=newIndex-oldIndex :=
    saturate_of_le _ (by omega) (by omega)
  have hplace : saturate ((newIndex : Int)-oldIndex-low)=newIndex-oldIndex-low :=
    saturate_of_le _ (by omega) (by omega)
  simp only [cell,id_eq,saturate_index hold,saturate_index hnew,hshift,hplace]

theorem sweepRows_saturate (hold : ∀ o∈old, o<2^63) (hnew : ∀ n∈new, n<2^63)
    (hslots : ∀ o∈old, ∀ n∈new, low≤(n : Int)-o ∧ (n : Int)-o-low<2^63) (same : List Cell) :
    sweepRows saturate old new kept low fixed same=sweepRows id old new kept low fixed same := by
  unfold sweepRows sweepRow
  refine foldl_ext _ _ _ fun s row hrow => foldl_ext _ _ _ fun s' cell hcell => ?_
  have ho := fst_mem_of_mem_zipIdx hrow
  have hn := fst_mem_of_mem_zipIdx hcell
  obtain ⟨hlow,hslot⟩ := hslots _ ho _ hn
  exact s'.cell_saturate (hold _ ho) (hnew _ hn) hlow hslot _ _ _

variable (hsortedOld : Rising old) (hsorted : Rising new)
  (hold : ∀ o∈old, o<2^63) (hnew : ∀ n∈new, n<2^63)
  (hspan : old.getLastD 0-old.headD 0+(new.getLastD 0-new.headD 0)+1<2^63)

include hsortedOld hsorted hold hnew hspan

/-- Where neither the indices nor the span of the shifts reach 2^63, no difference saturates. -/
theorem keep_eq_places (kept : Nat → Nat → Bool) (fixed : Int) :
    keep old new kept fixed=keepPlaces old new kept fixed := by
  simp only [keep,keepPlaces,keepBy,id_eq]
  split
  next firstOld lastOld firstNew lastNew hfirst hlast hfirst' hlast' =>
    have hslots := shift_slots hsortedOld hsorted hfirst hlast hfirst' hlast'
    have hmem := mem_of_mem_head? hfirst
    have hmem' := mem_of_getLast? hlast'
    have h1 := hold _ hmem
    have h2 := hold _ (mem_of_getLast? hlast)
    have h3 := hnew _ (mem_of_mem_head? hfirst')
    have h4 := hnew _ hmem'
    have horder := (hslots _ hmem _ (mem_of_mem_head? hfirst')).1
    have horder' := (hslots _ (mem_of_getLast? hlast) _ hmem').1
    rw [headD_eq_head?_getD,headD_eq_head?_getD,getLastD_eq_getLast?,getLastD_eq_getLast?,hfirst,
      hlast,hfirst',hlast'] at hspan
    simp only [Option.getD_some] at hspan
    have hlow : saturate ((firstNew : Int)-lastOld)=firstNew-lastOld :=
      saturate_of_le _ (by omega) (by omega)
    have hhigh : saturate ((lastNew : Int)-firstOld)=lastNew-firstOld :=
      saturate_of_le _ (by omega) (by omega)
    have hspread : saturate ((lastNew : Int)-firstOld-(firstNew-lastOld)) =
        lastNew-firstOld-(firstNew-lastOld) := saturate_of_le _ (by omega) (by omega)
    have hlength : saturate ((lastNew : Int)-firstOld-(firstNew-lastOld)+1) =
        lastNew-firstOld-(firstNew-lastOld)+1 := saturate_of_le _ (by omega) (by omega)
    rw [saturate_index h1,saturate_index h2,saturate_index h3,saturate_index h4,hlow,hhigh,hspread,
      hlength,sweepRows_saturate hold hnew fun o ho n hn => ⟨(hslots o ho n hn).1,?_⟩]
    have := (hslots o ho n hn).2
    omega
  · rfl

end Indices

/-- Where no difference of indices saturates, with fewer than 2^21 new rows and at most as many
cells kept as there are numbers for pairs, the rows kept are a common subsequence of the most rows,
then of the fewest blocks, then of the fewest rows moved. -/
theorem keep_lexicographic (old new : List Nat) (kept : Nat → Nat → Bool) (fixed : Int)
    (hsortedOld : old.Pairwise (·<·)) (hsorted : new.Pairwise (·<·))
    (hold : ∀ o∈old, o<2^63) (hnew : ∀ n∈new, n<2^63)
    (hspan : old.getLastD 0-old.headD 0+(new.getLastD 0-new.headD 0)+1<2^63)
    (hshortNew : new.length<2^21) (hfew : keptRowCells kept new.length old.length≤noPair) :
    (keep old new kept fixed).Pairwise (fun p q => p.1<q.1 ∧ p.2<q.2) ∧
    (∀ p∈keep old new kept fixed, KeptPair old new kept p.1 p.2) ∧
    ∀ other : Pairs, other.Pairwise (fun p q => p.1<q.1 ∧ p.2<q.2) →
      (∀ p∈other, KeptPair old new kept p.1 p.2) →
      other.length≤(keep old new kept fixed).length ∧
      (other.length=(keep old new kept fixed).length →
        blocks (keep old new kept fixed)≤blocks other ∧
        (blocks other=blocks (keep old new kept fixed) →
          movedPairs fixed (keep old new kept fixed) ≤ movedPairs fixed other)) := by
  rw [keep_eq_places hsortedOld hsorted hold hnew hspan]
  obtain ⟨hpairwise,hkept⟩ := @keepPlaces_sound old new kept fixed hsortedOld hsorted
  refine ⟨hpairwise,hkept,?_⟩
  intro other hother hall
  have htrail : Trail old new kept other.reverse :=
    ⟨pairwise_reverse.mpr hother,fun p hp => hall p (mem_reverse.mp hp)⟩
  have hshort : Short old new kept := fun pairs h => h.length_le.trans hshortNew.le
  have hscore : trailScore fixed other.reverse ≤
      trailScore fixed (keepPlaces old new kept fixed).reverse :=
    keepPlaces_optimal hshort hsortedOld hsorted hfew htrail
  have hlength := htrail.length_le
  have hblocks := blocks_le_length other
  have hmoved : movedPairs fixed other≤other.length := countP_le_length
  have hreverse (pairs : Pairs) :
      movedPairs fixed pairs.reverse=movedPairs fixed pairs := countP_reverse
  rw [trailScore_eq,trailScore_eq,blocks_reverse,blocks_reverse,hreverse,hreverse,length_reverse,
    length_reverse] at hscore
  rw [length_reverse] at hlength
  simp only [keptWorth,blockCost] at hscore
  exact ⟨by omega,fun hsame => ⟨by omega,fun hsame' => by omega⟩⟩

theorem shiftedRows_kept :
    keep [0,1] [1,2] (fun i j => i == j) 1=[(0,1),(1,2)] ∧
      [(0,1)].length≤(keep [0,1] [1,2] (fun i j => i == j) 1).length := by
  refine ⟨by decide +kernel,?_⟩
  refine ((keep_lexicographic [0,1] [1,2] (fun i j => i == j) 1 (by decide) (by decide) (by decide)
    (by decide) (by decide) (by decide) (by decide)).2.2 [(0,1)] (pairwise_singleton _ _) ?_).1
  intro p hp
  rw [mem_singleton.mp hp]
  exact ⟨0,0,rfl,rfl,rfl⟩

/-- Where every cell is kept the pairs are found row by row, and numbered within 32 bits. -/
structure Numbers (width count : Nat) (s : Sweep) : Prop where
  cells : ∀ cell∈s.left::s.here, cell.2≤noPair
  count : s.found.length=count
  old : ∀ (id : Nat) (pair : Match), s.found[id]?=some pair → pair.old=id / width

theorem Numbers.cell {width i j newIndex : Nat} {low fixed : Int} {above : List Cell} {s : Sweep}
    (h : Numbers width (i*width+j) s) (habove : ∀ cell∈above, cell.2≤noPair) (hj : j<width) :
    Numbers width (i*width+(j+1)) (s.cell id low fixed i above true newIndex j) := by
  have hpick {c : Prop} [Decidable c] {a b : Cell} (ha : a.2≤noPair) (hb : b.2≤noPair) :
      (if c then a else b).2≤noPair := by
    split
    · exact ha
    · exact hb
  have hbest : (above.getD j noCell).2≤noPair := by
    rw [getD_eq_getElem?_getD]
    cases hcell : above[j]? with
    | none => exact le_rfl
    | some cell => exact habove cell (mem_of_getElem? hcell)
  have hleft : s.left.2≤noPair := h.cells _ mem_cons_self
  simp only [Sweep.cell,if_true,id_eq]
  refine ⟨?_,by rw [length_append,h.count]; rfl,?_⟩
  · intro cell hcell
    simp only [mem_cons,mem_append,not_mem_nil,or_false] at hcell
    rcases hcell with rfl | hcell | rfl
    · exact hpick (min_le_right _ _) (hpick hleft hbest)
    · exact h.cells cell (mem_cons_of_mem _ hcell)
    · exact hpick (min_le_right _ _) (hpick hleft hbest)
  · intro id pair hpair
    obtain ⟨_,hpair⟩ | ⟨rfl,rfl⟩ := getElem?_snoc hpair
    · exact h.old id pair hpair
    · rw [h.count,mul_comm,mul_add_div (by omega),div_eq_of_lt hj]
      rfl

theorem sweepRows_numbers (n : Nat) (low fixed : Int) (same : List Cell) :
    Numbers n (n*n)
      (sweepRows id (List.range n) (List.range n) (fun _ _ => true) low fixed same) := by
  have hitem {i item : Nat} (h : (List.range n)[i]?=some item) : item=i ∧ i<n := by
    obtain ⟨hlt,rfl⟩ := List.getElem?_eq_some_iff.mp h
    exact ⟨getElem_range hlt,by simpa using hlt⟩
  have hstart : Numbers n (0*n) ⟨noCell,List.replicate (List.range n).length noCell,same,[]⟩ := by
    refine ⟨?_,by simp,by simp⟩
    intro cell hcell
    rcases mem_cons.mp hcell with rfl | hcell
    · exact le_rfl
    · exact (congrArg Prod.snd (eq_of_mem_replicate hcell)).le
  have hrows : Numbers n ((List.range n).length*n)
      (sweepRows id (List.range n) (List.range n) (fun _ _ => true) low fixed same) := by
    refine foldl_zipIdx_invariant (fun i s => Numbers n (i*n) s) _ hstart ?_
    intro i item s hi h
    obtain ⟨rfl,-⟩ := hitem hi
    have hrow : Numbers n (item*n+(List.range n).length)
        (sweepRow id (List.range n) (fun _ => true) low fixed item s.here s.same s.found) := by
      refine foldl_zipIdx_invariant (fun j t => Numbers n (item*n+j) t) _
        ⟨by simp [noCell],h.count,h.old⟩ ?_
      exact fun j newIndex t hj ht =>
        ht.cell (fun cell hcell => h.cells cell (mem_cons_of_mem _ hcell)) (hitem hj).2
    rwa [length_range,← succ_mul] at hrow
  rwa [length_range] at hrows

theorem traceBack_early {old new : List Nat} {kept : Nat → Nat → Bool} {found : List Match}
    (h : Linked old new kept found) {bound fuel last : Nat} (hlast : last≤noPair)
    (hbound : ∀ (id : Nat) (pair : Match), found[id]?=some pair → id<noPair → pair.old<bound) :
    ∀ p∈traceBack found fuel last, p.1<bound := by
  induction fuel generalizing last with
  | zero => simp [traceBack]
  | succ fuel ih =>
    rw [traceBack]
    split
    · simp
    next hne =>
      cases hpair : found[last]? with
      | none => simp
      | some pair =>
        intro p hp
        rcases mem_cons.mp hp with rfl | hp
        · exact hbound last pair hpair (by omega)
        refine ih ?_ p hp
        rcases (h last pair hpair).2 with hnone | ⟨prev,hprev,-⟩
        · exact hnone.le
        have := (List.getElem?_eq_some_iff.mp hprev).1
        rw [length_take] at this
        omega

theorem keepPlaces_range_early {n : Nat} {p : Nat × Nat}
    (hp : p∈keepPlaces (range n) (range n) (fun _ _ => true) 0) : p.1<noPair / n+1 := by
  have hsorted : Rising (range n) := pairwise_lt_range
  simp only [keepPlaces,keepBy,id_eq] at hp
  split at hp
  next firstOld lastOld firstNew lastNew hfirst hlast hfirst' hlast' =>
    have hlinked := @sweepRows_linked _ _ (fun _ _ => true) _ 0 hsorted hsorted
      fun o ho n hn => (shift_slots hsorted hsorted hfirst hlast hfirst' hlast' o ho n hn).1
    have hnumbers := sweepRows_numbers n (firstNew-lastOld) 0
    refine traceBack_early (hlinked _) ?_ ?_ p (mem_reverse.mp hp)
    · cases hcell : (sweepRows _ _ _ _ _ _ _).here.getLast? with
      | none => exact le_rfl
      | some cell =>
        exact (hnumbers _).cells cell (mem_cons_of_mem _ (mem_of_getLast? hcell))
    · intro id pair hpair hid
      rw [(hnumbers _).old id pair hpair]
      exact Nat.lt_succ_of_le (Nat.div_le_div_right hid.le)
  · cases hp

/-- Where 2^17 rows on each side are all alike there are more pairs than numbers for them, and not
all rows are kept. -/
theorem keep_runs_out : ∃ other : Pairs,
    other.Pairwise (fun p q => p.1<q.1 ∧ p.2<q.2) ∧
    (∀ p∈other, KeptPair (range (2^17)) (range (2^17)) (fun _ _ => true) p.1 p.2) ∧
    (keep (range (2^17)) (range (2^17)) (fun _ _ => true) 0).length<other.length := by
  have hsorted : (range (2^17)).Pairwise (·<·) := pairwise_lt_range
  refine ⟨(range (2^17)).map fun i => (i,i),?_,?_,?_⟩
  · exact pairwise_map.mpr (hsorted.imp fun h => ⟨h,h⟩)
  · intro p hp
    obtain ⟨i,hi,rfl⟩ := mem_map.mp hp
    have hrow : (range (2^17))[i]?=some i := getElem?_range (mem_range.mp hi)
    exact ⟨i,i,hrow,hrow,rfl⟩
  · have hfew : ∀ i∈range (2^17), i<2^63 := fun i hi => (mem_range.mp hi).trans (by decide)
    have hlast : (range (2^17)).getLastD 0≤2^17 := by
      rw [getLastD_eq_getLast?,getLast?_range]
      decide
    rw [keep_eq_places hsorted hsorted hfew hfew (by omega)]
    have hpairs := (@keepPlaces_sound _ _ (fun _ _ => true) 0 hsorted hsorted).1
    have hnodup : ((keepPlaces (range (2^17)) (range (2^17)) (fun _ _ => true) 0).map
        (·.1)).Nodup := pairwise_map.mpr (hpairs.imp fun h => h.1.ne)
    have hsub : (keepPlaces (range (2^17)) (range (2^17)) (fun _ _ => true) 0).map (·.1) ⊆
        range (noPair / 2^17+1) := by
      intro i hi
      obtain ⟨p,hp,rfl⟩ := mem_map.mp hi
      exact mem_range.mpr (keepPlaces_range_early hp)
    have hlength := (subperm_of_subset hnodup hsub).length_le
    rw [length_map,length_range] at hlength
    rw [length_map,length_range]
    exact hlength.trans_lt (by decide)

end Verbatim.Terminal
