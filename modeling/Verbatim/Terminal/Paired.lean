import Verbatim.Terminal.Optimal

namespace Verbatim.Terminal

open List Option Nat

/-- An order-keeping matching of alike rows. -/
structure Matching (old new : List (Nat × Likeness)) (pairs : Pairs) : Prop where
  sorted : Parallel pairs
  alike : ∀ p∈pairs, ∃ oldLike newLike,
    (p.1,oldLike)∈old ∧ (p.2,newLike)∈new ∧ oldLike.alike newLike=true

variable (prefer : Int) (pairs : Pairs)

def preferred : Nat :=
  pairs.countP fun p => shiftOf p=prefer

def pairScore : Int :=
  keptWorth*pairs.length+preferred prefer pairs

theorem pairScore_nonneg : 0≤pairScore prefer pairs := by
  unfold pairScore keptWorth
  omega

theorem pairScore_cons (p : Nat × Nat) (pairs : Pairs) :
    pairScore prefer (p::pairs) =
      pairScore prefer pairs+(keptWorth+if shiftOf p=prefer then 1 else 0) := by
  simp only [pairScore,preferred,countP_cons,length_cons,decide_eq_true_eq]
  split <;> push_cast <;> ring

theorem saturate_mono {score other : Int} (h : score≤other) : saturate score ≤ saturate other := by
  unfold saturate
  omega

theorem saturate_add {score more : Int} (hscore : 0 ≤ score) (hmore : 0 ≤ more) :
    saturate (saturate score+more)=saturate (score+more) := by
  unfold saturate
  omega

section Table

variable (weight : Nat → Nat → Option Int) (p q : Nat)

def pairValue (a b : Nat) : Int := ((pairTable weight p q).getD a []).getD b 0

/-- A list built from its end: each item is made of those after it. -/
theorem foldr_range_drop {α : Type*} (f : Nat → List α → α) (init : List α) (k n : Nat) :
    (∀ i<n, ((range' k n).foldr (fun a rest => f a rest::rest) init).drop i =
      f (k+i) (((range' k n).foldr (fun a rest => f a rest::rest) init).drop (i+1)) ::
        ((range' k n).foldr (fun a rest => f a rest::rest) init).drop (i+1)) ∧
    ((range' k n).foldr (fun a rest => f a rest::rest) init).drop n=init := by
  induction n generalizing k with
  | zero => simp
  | succ n ih =>
    obtain ⟨hitems,hend⟩ := ih (k+1)
    rw [range'_succ,foldr_cons]
    refine ⟨fun i hi => ?_,hend⟩
    cases i with
    | zero => simp
    | succ i =>
      have hitem := hitems i (by omega)
      rw [add_right_comm k 1 i] at hitem
      exact hitem

theorem headD_drop {α : Type*} (items : List α) (default : α) (i : Nat) :
    (items.drop i).headD default=items.getD i default := by
  rw [headD_eq_head?_getD,head?_drop,getD_eq_getElem?_getD]

theorem pairTable_row {a : Nat} (ha : a<p) : (pairTable weight p q).getD a [] =
    pairRow (weight a) q ((pairTable weight p q).getD (a+1) []) := by
  have hrow := (foldr_range_drop (fun a rows => pairRow (weight a) q (rows.headD []))
    [replicate (q+1) 0] 0 p).1 a ha
  rw [← range_eq_range',zero_add] at hrow
  rw [pairTable,← headD_drop,hrow,headD_cons,headD_drop]

theorem pairRow_eq (weight : Nat → Option Int) (below : List Int) : pairRow weight q below =
    (range' 0 q).foldr (fun b right => max (max (below.getD b 0) (right.headD 0))
      ((weight b).elim (below.getD b 0) fun w => saturate (below.getD (b+1) 0+w))::right) [0] := by
  rw [pairRow,range_eq_range']
  congr 1
  funext b right
  cases weight b <;> simp

variable {a b : Nat}

/-- A cell is the best of leaving either row out and of keeping the two where they are alike. -/
theorem pairValue_cell (ha : a<p) (hb : b<q) : pairValue weight p q a b =
    max (max (pairValue weight p q (a+1) b) (pairValue weight p q a (b+1)))
      ((weight a b).elim (pairValue weight p q (a+1) b)
        fun w => saturate (pairValue weight p q (a+1) (b+1)+w)) := by
  simp only [pairValue,pairTable_row weight p q ha]
  rw [pairRow_eq,← headD_drop,(foldr_range_drop _ [0] 0 q).1 b hb,headD_cons,headD_drop,zero_add]

theorem pairValue_edge (h : p≤a ∨ q≤b) : pairValue weight p q a b=0 := by
  unfold pairValue
  rcases Nat.lt_or_ge a p with ha | ha
  · have hb : q≤b := by omega
    rw [pairTable_row weight p q ha,pairRow_eq,← headD_drop,← Nat.sub_add_cancel hb,Nat.add_comm,
      ← drop_drop,(foldr_range_drop _ [0] 0 q).2]
    cases b-q <;> simp
  have hend := (foldr_range_drop (fun a rows => pairRow (weight a) q (rows.headD []))
    [replicate (q+1) 0] 0 p).2
  rw [← range_eq_range'] at hend
  rw [pairTable,← headD_drop _ [],← Nat.sub_add_cancel ha,Nat.add_comm _ p,← drop_drop,hend]
  cases a - p with
  | zero =>
    rw [drop_zero,headD_cons,getD_eq_getElem?_getD,getElem?_replicate]
    split <;> rfl
  | succ n => simp

end Table

section Matching

variable {x y : Nat × Likeness} {old new : List (Nat × Likeness)} {r : Nat × Nat}
  {pairs : Pairs}

theorem Matching.skipOld (h : Matching (x::old) new pairs) (hskip : ∀ p∈pairs, p.1≠x.1) :
    Matching old new pairs := by
  refine ⟨h.sorted,fun p hp => ?_⟩
  obtain ⟨oldLike,newLike,hold,hnew,halike⟩ := h.alike p hp
  obtain rfl | hold := mem_cons.mp hold
  · exact absurd rfl (hskip p hp)
  · exact ⟨oldLike,newLike,hold,hnew,halike⟩

theorem Matching.skipNew (h : Matching old (y::new) pairs) (hskip : ∀ p∈pairs, p.2≠y.1) :
    Matching old new pairs := by
  refine ⟨h.sorted,fun p hp => ?_⟩
  obtain ⟨oldLike,newLike,hold,hnew,halike⟩ := h.alike p hp
  obtain rfl | hnew := mem_cons.mp hnew
  · exact absurd rfl (hskip p hp)
  · exact ⟨oldLike,newLike,hold,hnew,halike⟩

theorem row_lt {row : Nat} {like : Likeness} (hsorted : Rising ((x::old).map (·.1)))
    (h : (row,like)∈x::old) (hne : row≠x.1) : x.1<row := by
  obtain rfl | h := mem_cons.mp h
  · exact absurd rfl hne
  · exact (pairwise_cons.mp hsorted).1 row (mem_map.mpr ⟨_,h,rfl⟩)

/-- A matching leaves out the first old row, or the first new row, or it starts with the two. -/
theorem Matching.start (h : Matching (x::old) (y::new) pairs)
    (hold : Rising ((x::old).map (·.1))) (hnew : Rising ((y::new).map (·.1))) :
    Matching old (y::new) pairs ∨ Matching (x::old) new pairs ∨
      x.2.alike y.2=true ∧ ∃ rest, pairs=(x.1,y.1)::rest ∧ Matching old new rest := by
  cases pairs with
  | nil => exact .inl ⟨List.Pairwise.nil,by simp⟩
  | cons r rest =>
    obtain ⟨hfirst,hrest⟩ := pairwise_cons.mp h.sorted
    obtain ⟨oldLike,newLike,hmem,hmem',halike⟩ := h.alike r mem_cons_self
    rcases eq_or_ne r.1 x.1 with hx | hx
    · rcases eq_or_ne r.2 y.1 with hy | hy
      · have hrows (p : Nat × Nat) (hp : p∈rest) : p.1≠x.1 ∧ p.2≠y.1 :=
          ⟨hx ▸ (hfirst p hp).1.ne',hy ▸ (hfirst p hp).2.ne'⟩
        have hothers : Matching (x::old) (y::new) rest :=
          ⟨hrest,fun p hp => h.alike p (mem_cons_of_mem _ hp)⟩
        have hlike {z : Nat × Likeness} {items : List (Nat × Likeness)} {like : Likeness}
            (hsorted : Rising ((z::items).map (·.1))) (h : (z.1,like)∈z::items) :
            like=z.2 := by
          obtain h | h := mem_cons.mp h
          · exact congrArg Prod.snd h
          · exact absurd ((pairwise_cons.mp hsorted).1 z.1 (mem_map.mpr ⟨_,h,rfl⟩)) (lt_irrefl _)
        rw [hx] at hmem
        rw [hy] at hmem'
        rw [hlike hold hmem,hlike hnew hmem'] at halike
        exact .inr (.inr ⟨halike,rest,by rw [← hx,← hy],
          (hothers.skipOld fun p hp => (hrows p hp).1).skipNew fun p hp => (hrows p hp).2⟩)
      · have hlater := row_lt hnew hmem' hy
        refine .inr (.inl (h.skipNew (forall_mem_cons.mpr ⟨hy,fun p hp => ?_⟩)))
        exact (hlater.trans (hfirst p hp).2).ne'
    · have hlater := row_lt hold hmem hx
      refine .inl (h.skipOld (forall_mem_cons.mpr ⟨hx,fun p hp => ?_⟩))
      exact (hlater.trans (hfirst p hp).1).ne'

theorem Matching.length_le (h : Matching old new pairs) :
    pairs.length≤old.length ∧ pairs.length≤new.length := by
  have hfirst : (pairs.map (·.1)).Nodup := pairwise_map.mpr (h.sorted.imp fun h => h.1.ne)
  have hsecond : (pairs.map (·.2)).Nodup := pairwise_map.mpr (h.sorted.imp fun h => h.2.ne)
  have hold : pairs.map (·.1)⊆old.map (·.1) := by
    intro n hn
    obtain ⟨p,hp,rfl⟩ := mem_map.mp hn
    obtain ⟨oldLike,_,hmem,-⟩ := h.alike p hp
    exact mem_map.mpr ⟨_,hmem,rfl⟩
  have hnew : pairs.map (·.2)⊆new.map (·.1) := by
    intro n hn
    obtain ⟨p,hp,rfl⟩ := mem_map.mp hn
    obtain ⟨_,newLike,-,hmem,-⟩ := h.alike p hp
    exact mem_map.mpr ⟨_,hmem,rfl⟩
  have hle := (subperm_of_subset hfirst hold).length_le
  have hle' := (subperm_of_subset hsecond hnew).length_le
  rw [length_map,length_map] at hle hle'
  exact ⟨hle,hle'⟩

end Matching

section Walk

variable {old new : List (Nat × Likeness)} {prefer : Int}

theorem pairWeight_eq (prefer : Int) (ha : a<old.length) (hb : b<new.length) :
    pairWeight id old new prefer a b=if old[a].2.alike new[b].2 then
      some (keptWorth+if shiftOf (old[a].1,new[b].1)=prefer then 1 else 0) else none := by
  unfold pairWeight
  simp only [id_eq]
  rw [getElem?_eq_getElem ha,getElem?_eq_getElem hb]
  dsimp only
  congr 2
  unfold saturate shiftOf keptWorth
  split <;> rfl

/-- The table is above the score of every matching of the rows left. -/
theorem Matching.le_value (prefer : Int) (hold : Rising (old.map (·.1)))
    (hnew : Rising (new.map (·.1))) {pairs : Pairs}
    (h : Matching (old.drop a) (new.drop b) pairs) : saturate (pairScore prefer pairs) ≤
      pairValue (pairWeight id old new prefer) old.length new.length a b := by
  induction hleft : old.length-a+(new.length-b) using Nat.strong_induction_on
    generalizing a b pairs with
  | _ n ih =>
    by_cases hedge : old.length≤a ∨ new.length≤b
    · have hlength := h.length_le
      rw [length_drop,length_drop] at hlength
      rw [eq_nil_of_length_eq_zero (show pairs.length=0 by omega),pairValue_edge _ _ _ hedge]
      rfl
    have ha : a<old.length := by omega
    have hb : b<new.length := by omega
    have hsorted : Rising ((old.drop a).map (·.1)) := map_drop ▸ hold.drop
    have hsorted' : Rising ((new.drop b).map (·.1)) := map_drop ▸ hnew.drop
    have hcases := h
    rw [drop_eq_getElem_cons ha] at hsorted hcases
    rw [drop_eq_getElem_cons hb] at hsorted' hcases
    rw [pairValue_cell _ _ _ ha hb]
    obtain hskip | hskip | ⟨halike,rest,rfl,hrest⟩ := hcases.start hsorted hsorted'
    · rw [← drop_eq_getElem_cons hb] at hskip
      exact (ih _ (by omega) hskip rfl).trans (le_max_of_le_left (le_max_left _ _))
    · rw [← drop_eq_getElem_cons ha] at hskip
      exact (ih _ (by omega) hskip rfl).trans (le_max_of_le_left (le_max_right _ _))
    refine le_max_of_le_right ?_
    rw [pairWeight_eq prefer ha hb,if_pos halike,elim_some,pairScore_cons]
    rw [← saturate_add (pairScore_nonneg _ _) (by unfold keptWorth; split <;> omega)]
    exact saturate_mono (Int.add_le_add_right (ih _ (by omega) hrest rfl) _)

theorem pairWalk_score {fuel a b : Nat} (hfuel : old.length-a+(new.length-b)≤fuel)
    {walk : Pairs} (hwalk : walk=pairWalk old new (pairWeight id old new prefer)
      (pairTable (pairWeight id old new prefer) old.length new.length) fuel a b) :
    saturate (pairScore prefer walk) =
        pairValue (pairWeight id old new prefer) old.length new.length a b ∧
      ∀ p∈walk, ∃ oldLike newLike,
        (p.1,oldLike)∈old ∧ (p.2,newLike)∈new ∧ oldLike.alike newLike=true := by
  induction fuel generalizing a b walk with
  | zero =>
    rw [pairValue_edge _ _ _ (by omega),hwalk]
    exact ⟨rfl,by simp [pairWalk]⟩
  | succ fuel ih =>
    simp only [pairWalk] at hwalk
    split at hwalk
    next oldRow oldLike newRow newLike hold hnew =>
      obtain ⟨ha,hget⟩ := List.getElem?_eq_some_iff.mp hold
      obtain ⟨hb,hget'⟩ := List.getElem?_eq_some_iff.mp hnew
      have hcell := pairValue_cell (pairWeight id old new prefer) _ _ ha hb
      have hweight := pairWeight_eq prefer ha hb
      rw [hget,hget'] at hweight
      have hbelow := ih (a := a+1) (b := b) (by omega) rfl
      have hright := ih (a := a) (b := b+1) (by omega) rfl
      obtain ⟨hscore,hmem⟩ := ih (a := a+1) (b := b+1) (by omega) rfl
      simp only [pairValue] at hcell hbelow hright hscore ⊢
      split at hwalk
      next htakes =>
        by_cases halike : oldLike.alike newLike=true
        · rw [hweight,if_pos halike,any_some,decide_eq_true_eq] at htakes
          rw [hwalk,htakes,pairScore_cons,← saturate_add (pairScore_nonneg _ _)
            (by unfold keptWorth; split <;> omega),hscore]
          refine ⟨rfl,forall_mem_cons.mpr ⟨⟨oldLike,newLike,?_,?_,halike⟩,hmem⟩⟩
          · exact mem_of_getElem? hold
          · exact mem_of_getElem? hnew
        · rw [hweight,if_neg halike] at htakes
          cases htakes
      next htakes =>
        split at hwalk
        next hvalue =>
          rw [hwalk,hvalue]
          exact hbelow
        next hvalue =>
          -- neither keeping the two rows nor leaving out the old one is best
          rw [hwalk]
          refine ⟨hright.1.trans ?_,hright.2⟩
          cases hw : pairWeight id old new prefer a b with
          | none =>
            rw [hw,elim_none] at hcell
            omega
          | some w =>
            rw [hw,any_some,decide_eq_true_eq] at htakes
            rw [hw,elim_some] at hcell
            omega
    next hnone =>
      have hedge : old.length≤a ∨ new.length≤b := by
        by_contra hin
        exact hnone _ _ _ _ (getElem?_eq_getElem (by omega)) (getElem?_eq_getElem (by omega))
      rw [pairValue_edge _ _ _ hedge,hwalk]
      exact ⟨rfl,by simp⟩

theorem pairPlaces_matching (prefer : Int) (hold : Rising (old.map (·.1)))
    (hnew : Rising (new.map (·.1))) : Matching old new (pairPlaces old new prefer) :=
  ⟨(pairBy_sound id prefer hold hnew).1,(pairWalk_score (by omega) rfl).2⟩

theorem pairPlaces_score (old new : List (Nat × Likeness)) (prefer : Int) :
    saturate (pairScore prefer (pairPlaces old new prefer)) =
      pairValue (pairWeight id old new prefer) old.length new.length 0 0 :=
  (pairWalk_score (by omega) rfl).1

theorem pair_eq_places (hbelow : ∀ row∈old++new, row.1<2^63) (prefer : Int) :
    pair old new prefer=pairPlaces old new prefer := by
  have hweight : pairWeight saturate old new prefer=pairWeight id old new prefer := by
    funext a b
    unfold pairWeight
    split
    next oldRow oldLike newRow newLike ha hb =>
      have hrow := hbelow _ (mem_append_left _ (mem_of_getElem? ha))
      have hrow' := hbelow _ (mem_append_right _ (mem_of_getElem? hb))
      have hshift : saturate ((newRow : Int)-oldRow)=newRow-oldRow :=
        saturate_of_le _ (by omega) (by omega)
      simp only [id_eq,saturate_index hrow,saturate_index hrow',hshift]
    · rfl
  rw [pair,pairPlaces,pairBy,pairBy,hweight]

/-- Where no index reaches 2^63 and one side has fewer than 2^21 rows, the rows are paired as an
order-keeping matching of alike rows with the most pairs, and among those with the most of the shift
preferred. -/
theorem pair_lexicographic (old new : List (Nat × Likeness)) (prefer : Int)
    (hold : (old.map (·.1)).Pairwise (·<·)) (hnew : (new.map (·.1)).Pairwise (·<·))
    (hbelow : ∀ row∈old++new, row.1<2^63) (hshort : old.length<2^21 ∨ new.length<2^21) :
    Matching old new (pair old new prefer) ∧
      ∀ other, Matching old new other → other.length≤(pair old new prefer).length ∧
        (other.length=(pair old new prefer).length →
          preferred prefer other≤preferred prefer (pair old new prefer)) := by
  rw [pair_eq_places hbelow]
  have hpair := pairPlaces_matching prefer hold hnew
  refine ⟨hpair,fun other hother => ?_⟩
  have hexact {pairs : Pairs} (h : Matching old new pairs) :
      saturate (pairScore prefer pairs)=keptWorth*pairs.length+preferred prefer pairs ∧
        preferred prefer pairs<2^21 := by
    have hlength := h.length_le
    have hpreferred : preferred prefer pairs≤pairs.length := countP_le_length
    refine ⟨saturate_of_le _ ?_ ?_,by omega⟩ <;> unfold pairScore keptWorth <;> omega
  have hle : saturate (pairScore prefer other) ≤
      saturate (pairScore prefer (pairPlaces old new prefer)) :=
    pairPlaces_score old new prefer ▸ Matching.le_value prefer hold hnew hother
  obtain ⟨hscore,hfew⟩ := hexact hother
  obtain ⟨hscore',hfew'⟩ := hexact hpair
  rw [hscore,hscore'] at hle
  unfold keptWorth at hle
  constructor <;> omega

theorem rewrittenRows_paired :
    let old := [(0,Likeness.ofText "ab".toList),(2,Likeness.ofText "cd".toList)]
    let new := [(1,Likeness.ofText "ab".toList),(2,Likeness.ofText "cx".toList)]
    (old.map (·.1)).Pairwise (·<·) ∧ (new.map (·.1)).Pairwise (·<·) ∧
      ∀ other, Matching old new other → other.length≤(pair old new 0).length :=
  ⟨by decide,by decide,fun other h =>
    ((pair_lexicographic _ _ 0 (by decide) (by decide) (by decide) (by decide)).2 other h).1⟩

def sameRows (n : Nat) : List (Nat × Likeness) :=
  (List.range n).map fun i => (i,Likeness.ofText ['a'])

theorem sameRows_sorted (n : Nat) : Rising ((sameRows n).map (·.1)) := by
  have hrows : (sameRows n).map (·.1)=range n := by simp [sameRows,Function.comp_def]
  exact hrows ▸ pairwise_lt_range

theorem sameRows_shifted (n k : Nat) : Matching ((sameRows n).drop k) ((sameRows (n+1)).drop k)
    ((range' k (n-k)).map fun i => (i,i+1)) := by
  refine ⟨pairwise_map.mpr ((pairwise_lt_range' ..).imp fun h => ⟨h,by omega⟩),fun p hp => ?_⟩
  obtain ⟨i,hi,rfl⟩ := mem_map.mp hp
  rw [mem_range'_1] at hi
  have hrow (n : Nat) {j : Nat} (hj : k≤j ∧ j<n) :
      (j,Likeness.ofText ['a'])∈(sameRows n).drop k := by
    refine mem_drop_iff_getElem.mpr ⟨j-k,?_,?_⟩
    · simp [sameRows]; omega
    · simp [sameRows]; omega
  exact ⟨_,_,hrow n ⟨hi.1,by omega⟩,hrow (n+1) ⟨by omega,by omega⟩,by decide⟩

theorem shifted_score (k n : Nat) :
    pairScore 1 ((range' k n).map fun i => (i,i+1))=(keptWorth+1)*n ∧
      preferred 1 ((range' k n).map fun i => (i,i+1))=n := by
  have hall : preferred 1 ((range' k n).map fun i => (i,i+1))=n := by
    rw [preferred,countP_eq_length.mpr,length_map,length_range']
    intro p hp
    obtain ⟨i,-,rfl⟩ := mem_map.mp hp
    simp [shiftOf]
  rw [pairScore,hall,length_map,length_range']
  exact ⟨by ring,rfl⟩

/-- With 2^21 old rows all alike the first is kept where it was: the values saturate. -/
theorem sameRows_first {n : Nat} (hn : n=2^21) :
    ∃ rest, pairPlaces (sameRows n) (sameRows (n+1)) 1=(0,0)::rest := by
  have hsize (m : Nat) : (sameRows m).length=m := by simp [sameRows]
  have hrow {m : Nat} (hm : 0 < m) : (sameRows m)[0]?=some (0,Likeness.ofText ['a']) := by
    simp [sameRows,hm]
  have hweight : pairWeight id (sameRows n) (sameRows (n+1)) 1 0 0=some keptWorth := by
    rw [pairWeight,hrow (by omega),hrow (by omega)]
    decide
  have hvalue (k : Nat) := (sameRows_shifted n k).le_value 1 (sameRows_sorted n)
    (sameRows_sorted (n+1))
  have hscore := pairPlaces_score (sameRows n) (sameRows (n+1)) 1
  have hfirst := hvalue 0
  have hnext := hvalue 1
  rw [(shifted_score _ _).1,hsize,hsize] at hfirst hnext
  rw [hsize,hsize] at hscore
  rw [pairPlaces,pairBy,hsize,hsize,← add_assoc,pairWalk,hrow (by omega),hrow (by omega)]
  dsimp only
  rw [hweight,any_some,if_pos]
  · exact ⟨_,rfl⟩
  refine decide_eq_true ?_
  simp only [pairValue,saturate,keptWorth,zero_add] at hfirst hnext hscore ⊢
  omega

/-- Of 2^21 rows that are all alike the score has no room left for the shift preferred: the first
row is kept where it was, though all may be kept one below. -/
theorem pair_saturates : (∀ n, ((sameRows n).map (·.1)).Pairwise (·<·)) ∧
    ∃ other : Pairs, Matching (sameRows (2^21)) (sameRows (2^21+1)) other ∧
    (pair (sameRows (2^21)) (sameRows (2^21+1)) 1).length≤other.length ∧
    preferred 1 (pair (sameRows (2^21)) (sameRows (2^21+1)) 1)<preferred 1 other := by
  generalize hn : 2^21=n
  obtain ⟨rest,hrest⟩ := sameRows_first hn.symm
  have hbelow : ∀ row∈sameRows n++sameRows (n+1), row.1<2^63 := by
    intro row hrow
    simp only [sameRows,mem_append,List.mem_map,mem_range] at hrow
    obtain ⟨i,hi,rfl⟩ | ⟨i,hi,rfl⟩ := hrow <;> dsimp only <;> omega
  rw [pair_eq_places hbelow]
  have hlength := (pairPlaces_matching 1 (sameRows_sorted n) (sameRows_sorted (n+1))).length_le.1
  refine ⟨sameRows_sorted,_,sameRows_shifted n 0,?_,?_⟩
  · simpa [sameRows] using hlength
  have hpreferred : preferred 1 rest≤rest.length := countP_le_length
  have hnone : preferred 1 ((0,0)::rest)=preferred 1 rest := by simp [preferred,shiftOf]
  rw [hrest] at hlength ⊢
  rw [(shifted_score _ _).2,hnone]
  simp [sameRows] at hlength
  omega

end Walk

end Verbatim.Terminal
