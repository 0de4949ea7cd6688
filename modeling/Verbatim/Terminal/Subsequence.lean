import Verbatim.Terminal.Align
import Verbatim.Framework.Machine

namespace Verbatim.Terminal

open Framework List Option Nat

/-- There is no pair numbered so, or the pair found there is as said. -/
def Names (found : List Match) (id : Nat) (said : Match → Prop) : Prop :=
  id=noPair ∨ ∃ pair, found[id]?=some pair ∧ said pair

variable {found : List Match}

theorem Names.weaken {id : Nat} {said said' : Match → Prop}
    (h : Names found id said) (hsaid : ∀ pair, said pair → said' pair) : Names found id said' := by
  obtain h | ⟨pair,hpair,hs⟩ := h
  · exact Or.inl h
  · exact Or.inr ⟨pair,hpair,hsaid pair hs⟩

variable {said : Match → Prop}

theorem Names.append {id : Nat}
    (h : Names found id said) (extra : List Match) : Names (found++extra) id said := by
  obtain h | ⟨pair,hpair,hs⟩ := h
  · exact Or.inl h
  refine Or.inr ⟨pair,?_,hs⟩
  rw [getElem?_append_left (List.getElem?_eq_some_iff.mp hpair).1]
  exact hpair

theorem names_noCell (found : List Match) (said : Match → Prop) : Names found noCell.2 said :=
  Or.inl rfl

theorem names_last (found : List Match) (pair : Match) (h : said pair) :
    Names (found++[pair]) (min found.length noPair) said := by
  obtain hle | hlt := le_total noPair found.length
  · exact Or.inl (min_eq_right hle)
  · exact Or.inr ⟨pair,by simp [min_eq_left hlt],h⟩

theorem names_getD {cells : List Cell} {slot : Nat}
    (h : ∀ cell, cells[slot]?=some cell → Names found cell.2 said) :
    Names found (cells.getD slot noCell).2 said := by
  rw [getD_eq_getElem?_getD]
  cases hc : cells[slot]? with
  | none => exact names_noCell found said
  | some cell => exact h cell hc

def KeptPair (old new : List Nat) (kept : Nat → Nat → Bool) (oldRow newRow : Nat) : Prop :=
  ∃ i j, old[i]?=some oldRow ∧ new[j]?=some newRow ∧ kept i j=true

/-- Every pair found is one of rows kept, after an earlier pair above and to the left of it. -/
def Linked (old new : List Nat) (kept : Nat → Nat → Bool) (found : List Match) : Prop :=
  ∀ id pair, found[id]?=some pair → KeptPair old new kept pair.old pair.new ∧
    Names (found.take id) pair.prev fun prev => prev.old<pair.old ∧ prev.new<pair.new

/-- The row under way, after the cells of the first `j` new rows. -/
structure Swept (old new : List Nat) (kept : Nat → Nat → Bool) (low : Int) (oldIndex j : Nat)
    (s : Sweep) : Prop where
  linked : Linked old new kept s.found
  left : Names s.found s.left.2 (fun pair => pair.old≤oldIndex ∧ ∃ n∈new.take j, pair.new≤n)
  count : s.here.length=j
  here : ∀ (index : Nat) (cell : Cell), s.here[index]?=some cell → Names s.found cell.2
    (fun pair => pair.old≤oldIndex ∧ ∃ n, new[index]?=some n ∧ pair.new≤n)
  same : ∀ (slot : Nat) (cell : Cell), s.same[slot]?=some cell → Names s.found cell.2
    fun pair => (pair.new : Int)-pair.old=slot+low ∧
      (pair.old<oldIndex ∨ pair.old=oldIndex ∧ pair.new∈new.take j)

/-- The cells of the rows above, all of them of earlier old rows. -/
def Above (new : List Nat) (oldIndex : Nat) (above : List Cell) (found : List Match) : Prop :=
  ∀ (index : Nat) (cell : Cell), above[index]?=some cell → Names found cell.2
    fun pair => pair.old<oldIndex ∧ ∃ n, new[index]?=some n ∧ pair.new≤n

variable {items : List Nat}

theorem mem_take_of_getElem? {j n : Nat} (h : items[j]?=some n) : n∈items.take (j+1) := by
  rw [take_add_one,h]
  simp

theorem mem_take_succ {j n : Nat} (h : n∈items.take j) : n∈items.take (j+1) := by
  rw [take_add_one]
  exact mem_append_left _ h

theorem lt_of_mem_take (hsorted : Rising items) {j m n : Nat}
    (hm : m∈items.take j) (hn : items[j]?=some n) : m<n := by
  have hsplit : items.take j++items.drop j=items := take_append_drop j items
  rw [← hsplit] at hsorted
  refine (pairwise_append.mp hsorted).2.2 m hm n ?_
  obtain ⟨hlt,hget⟩ := List.getElem?_eq_some_iff.mp hn
  rw [drop_eq_getElem_cons hlt,hget]
  simp

variable {old new : List Nat} {kept : Nat → Nat → Bool} {low fixed : Int} {oldIndex i : Nat}
  {s : Sweep}

section Cells

theorem Linked.snoc (pair : Match) (h : Linked old new kept found)
    (hkept : KeptPair old new kept pair.old pair.new)
    (hprev : Names found pair.prev fun prev => prev.old<pair.old ∧ prev.new<pair.new) :
    Linked old new kept (found++[pair]) := by
  intro id other hother
  obtain ⟨hlt,hother⟩ | ⟨rfl,rfl⟩ := getElem?_snoc hother
  · rw [take_append_of_le_length (le_of_lt hlt)]
    exact h id other hother
  · rw [take_left]
    exact ⟨hkept,hprev⟩

variable {newIndex j : Nat} {above : List Cell}

theorem Swept.next {s' : Sweep} {best : Cell} (extra : List Match)
    (hnew : new[j]?=some newIndex) (hswept : Swept old new kept low oldIndex j s)
    (hfound : s'.found=s.found++extra) (hlinked : Linked old new kept s'.found)
    (hleft : s'.left=best) (hhere : s'.here=s.here++[best])
    (hbest : Names s'.found best.2 fun pair => pair.old≤oldIndex ∧ pair.new≤newIndex)
    (hsame : ∀ (slot : Nat) (cell : Cell), s'.same[slot]?=some cell → Names s'.found cell.2
      fun pair => (pair.new : Int)-pair.old=slot+low ∧
        (pair.old<oldIndex ∨ pair.old=oldIndex ∧ pair.new∈new.take (j+1))) :
    Swept old new kept low oldIndex (j+1) s' := by
  refine ⟨hlinked,?_,by rw [hhere,length_append,hswept.count,length_singleton],?_,hsame⟩
  · rw [hleft]
    exact hbest.weaken fun pair h => ⟨h.1,newIndex,mem_take_of_getElem? hnew,h.2⟩
  intro index cell hcell
  rw [hhere] at hcell
  obtain ⟨_,hcell⟩ | ⟨rfl,rfl⟩ := getElem?_snoc hcell
  · rw [hfound]
    exact (hswept.here index cell hcell).append extra
  · rw [hswept.count]
    exact hbest.weaken fun pair h => ⟨h.1,newIndex,hnew,h.2⟩

variable (hnew : new[j]?=some newIndex) (hsorted : Rising new)

include hnew hsorted

theorem best_names (hswept : Swept old new kept low oldIndex j s)
    (habove : Above new oldIndex above s.found) :
    Names s.found (if (above.getD j noCell).1<s.left.1 then s.left else above.getD j noCell).2
      fun pair => pair.old≤oldIndex ∧ pair.new≤newIndex := by
  split
  · refine hswept.left.weaken ?_
    rintro pair ⟨hold,n,hn,hle⟩
    exact ⟨hold,hle.trans (lt_of_mem_take hsorted hn hnew).le⟩
  refine names_getD fun cell hcell => (habove j cell hcell).weaken ?_
  rintro pair ⟨hold,n,hn,hle⟩
  rw [hnew] at hn
  exact ⟨hold.le,some.inj hn ▸ hle⟩

theorem diagonal_names (habove : Above new oldIndex above s.found) :
    Names s.found (if j=0 then noCell else above.getD (j-1) noCell).2
      fun pair => pair.old<oldIndex ∧ pair.new<newIndex := by
  split
  · exact names_noCell _ _
  next hj =>
    refine names_getD fun cell hcell => (habove (j-1) cell hcell).weaken ?_
    rintro pair ⟨hold,n,hn,hle⟩
    have hmem : n∈new.take j := by
      have := mem_take_of_getElem? hn
      rwa [Nat.sub_add_cancel (Nat.one_le_iff_ne_zero.mpr hj)] at this
    exact ⟨hold,hle.trans_lt (lt_of_mem_take hsorted hmem hnew)⟩

theorem run_names (hswept : Swept old new kept low oldIndex j s)
    (hlow : low≤(newIndex : Int)-oldIndex) :
    Names s.found (s.same.getD ((newIndex : Int)-oldIndex-low).toNat noCell).2
      fun pair => pair.old<oldIndex ∧ pair.new<newIndex := by
  refine names_getD fun cell hcell => (hswept.same _ cell hcell).weaken ?_
  rintro pair ⟨hshift,hrow⟩
  obtain hold | ⟨hold,hmem⟩ := hrow
  · omega
  · have := lt_of_mem_take hsorted hmem hnew
    omega

theorem Swept.cell (hold : old[i]?=some oldIndex) (hlow : low≤(newIndex : Int)-oldIndex)
    (hswept : Swept old new kept low oldIndex j s) (habove : Above new oldIndex above s.found) :
    Swept old new kept low oldIndex (j+1)
      (s.cell id low fixed oldIndex above (kept i j) newIndex j) ∧
      Above new oldIndex above
        (s.cell id low fixed oldIndex above (kept i j) newIndex j).found := by
  have hbest := best_names hnew hsorted hswept habove
  have hstays : ∀ (slot : Nat) (cell : Cell), s.same[slot]?=some cell → Names s.found cell.2
      fun pair => (pair.new : Int)-pair.old=slot+low ∧
        (pair.old<oldIndex ∨ pair.old=oldIndex ∧ pair.new∈new.take (j+1)) := by
    intro slot cell hcell
    refine (hswept.same slot cell hcell).weaken fun pair h => ⟨h.1,?_⟩
    exact h.2.imp_right fun hrow => ⟨hrow.1,mem_take_succ hrow.2⟩
  simp only [Sweep.cell,id_eq]
  generalize (if (above.getD j noCell).1<s.left.1 then s.left else above.getD j noCell)=best
    at hbest ⊢
  split
  next hkept =>
    have hdiagonal := diagonal_names hnew hsorted habove
    have hrun := run_names hnew hsorted hswept hlow
    generalize (if j=0 then noCell else above.getD (j-1) noCell)=diagonal at hdiagonal ⊢
    generalize hslot : ((newIndex : Int)-oldIndex-low).toNat=slot at hrun ⊢
    generalize s.same.getD slot noCell=run at hrun ⊢
    generalize (if (newIndex : Int)-oldIndex=fixed then (0 : Int) else 1)=moved
    generalize saturate (saturate (saturate (diagonal.1+keptWorth)-blockCost)-moved)=fresh
    generalize saturate (saturate (run.1+keptWorth)-moved)=continued
    generalize hprev : (if run.2≠noPair ∧ fresh<continued then run.2 else diagonal.2)=prev
    generalize (if run.2≠noPair ∧ fresh<continued then continued else fresh)=score
    have hprevNames : Names s.found prev fun pair => pair.old<oldIndex ∧ pair.new<newIndex := by
      subst hprev
      split
      · exact hrun
      · exact hdiagonal
    have hlinked := Linked.snoc ⟨oldIndex,newIndex,prev⟩ hswept.linked
      ⟨i,j,hold,hnew,hkept⟩ hprevNames
    have hlast {said : Match → Prop} (h : said ⟨oldIndex,newIndex,prev⟩) :=
      names_last s.found ⟨oldIndex,newIndex,prev⟩ h
    refine ⟨Swept.next _ hnew hswept rfl hlinked rfl rfl ?_ ?_,
      fun index cell hcell => (habove index cell hcell).append _⟩
    · split
      · exact hlast ⟨le_refl _,le_refl _⟩
      · exact hbest.append _
    · intro other cell hcell
      dsimp only at hcell
      split at hcell
      · rw [getElem?_set] at hcell
        split at hcell
        next hother =>
          split at hcell
          · cases hcell
            refine hlast ⟨?_,Or.inr ⟨rfl,mem_take_of_getElem? hnew⟩⟩
            dsimp only
            omega
          · cases hcell
        · exact (hstays other cell hcell).append _
      · exact (hstays other cell hcell).append _
  · exact ⟨Swept.next [] hnew hswept (by simp) hswept.linked rfl rfl hbest hstays,habove⟩

end Cells

structure SweptRows (old new : List Nat) (kept : Nat → Nat → Bool) (low : Int) (i : Nat)
    (s : Sweep) : Prop where
  linked : Linked old new kept s.found
  here : ∀ (index : Nat) (cell : Cell), s.here[index]?=some cell → Names s.found cell.2
    (fun pair => (∃ o∈old.take i, pair.old≤o) ∧ ∃ n, new[index]?=some n ∧ pair.new≤n)
  same : ∀ (slot : Nat) (cell : Cell), s.same[slot]?=some cell → Names s.found cell.2
    fun pair => (pair.new : Int)-pair.old=slot+low ∧ ∃ o∈old.take i, pair.old≤o

theorem SweptRows.row (hold : old[i]?=some oldIndex) (hsortedOld : Rising old)
    (hsorted : Rising new) (hlow : ∀ n∈new, low≤(n : Int)-oldIndex)
    (h : SweptRows old new kept low i s) :
    SweptRows old new kept low (i+1)
      (sweepRow id new (kept i) low fixed oldIndex s.here s.same s.found) := by
  have hbefore {pair : Match} (hpair : ∃ o∈old.take i, pair.old≤o) : pair.old<oldIndex := by
    obtain ⟨o,ho,hle⟩ := hpair
    exact hle.trans_lt (lt_of_mem_take hsortedOld ho hold)
  have hstart : Swept old new kept low oldIndex 0 ⟨noCell,[],s.same,s.found⟩ := by
    refine ⟨h.linked,names_noCell _ _,rfl,fun index cell hcell => by simp at hcell,?_⟩
    intro slot cell hcell
    exact (h.same slot cell hcell).weaken fun pair hp => ⟨hp.1,Or.inl (hbefore hp.2)⟩
  have habove : Above new oldIndex s.here s.found := by
    intro index cell hcell
    exact (h.here index cell hcell).weaken fun pair hp => ⟨hbefore hp.1,hp.2⟩
  obtain ⟨hswept,-⟩ := foldl_zipIdx_invariant
    (fun j s' => Swept old new kept low oldIndex j s' ∧ Above new oldIndex s.here s'.found)
    (f := fun s' p => s'.cell id low fixed oldIndex s.here (kept i p.2) p.1 p.2)
    new ⟨hstart,habove⟩ fun j newIndex s' hnew hinv => Swept.cell hnew hsorted hold
      (hlow newIndex (mem_of_getElem? hnew)) hinv.1 hinv.2
  have hmem := mem_take_of_getElem? hold
  refine ⟨hswept.linked,?_,?_⟩
  · intro index cell hcell
    exact (hswept.here index cell hcell).weaken fun pair hp => ⟨⟨oldIndex,hmem,hp.1⟩,hp.2⟩
  intro slot cell hcell
  refine (hswept.same slot cell hcell).weaken fun pair hp => ⟨hp.1,oldIndex,hmem,?_⟩
  obtain hlt | ⟨heq,-⟩ := hp.2
  · exact hlt.le
  · exact heq.le

theorem sweepRows_linked (hsortedOld : Rising old) (hsorted : Rising new)
    (hlow : ∀ o∈old, ∀ n∈new, low≤(n : Int)-o) (span : Nat) :
    Linked old new kept (sweepRows id old new kept low fixed (replicate span noCell)).found := by
  have hempty {count index : Nat} {cell : Cell} {said : Match → Prop}
      (h : (replicate count noCell)[index]?=some cell) : Names [] cell.2 said := by
    rw [eq_of_mem_replicate (mem_of_getElem? h)]
    exact names_noCell _ _
  have hstart : SweptRows old new kept low 0
      ⟨noCell,replicate new.length noCell,replicate span noCell,[]⟩ :=
    ⟨fun id pair h => by simp at h,fun _ _ h => hempty h,fun _ _ h => hempty h⟩
  exact (foldl_zipIdx_invariant (fun i s => SweptRows old new kept low i s)
    old hstart fun i oldIndex s hold hinv => hinv.row hold hsortedOld hsorted
      (hlow oldIndex (mem_of_getElem? hold))).linked

theorem traceBack_sound (h : Linked old new kept found) (fuel last : Nat) :
    (traceBack found fuel last).Pairwise (fun p q => q.1<p.1 ∧ q.2<p.2) ∧
      (∀ p∈traceBack found fuel last, KeptPair old new kept p.1 p.2) ∧
      ∀ pair, found[last]?=some pair → ∀ p∈traceBack found fuel last,
        p.1≤pair.old ∧ p.2≤pair.new := by
  induction fuel generalizing last with
  | zero => simp [traceBack]
  | succ fuel ih =>
    simp only [traceBack]
    split
    · simp
    split
    · simp
    next pair hpair =>
      obtain ⟨hkept,hprev⟩ := h last pair hpair
      obtain ⟨hsorted,hall,hfirst⟩ := ih pair.prev
      have hless : ∀ p∈traceBack found fuel pair.prev,p.1<pair.old ∧ p.2<pair.new := by
        intro p hp
        obtain hnone | ⟨prev,hprev,hlt⟩ := hprev
        · cases fuel with
          | zero => simp [traceBack] at hp
          | succ fuel => simp [traceBack,hnone] at hp
        have hget : found[pair.prev]?=some prev := by
          rw [getElem?_take] at hprev
          split at hprev
          · exact hprev
          · cases hprev
        have hle := hfirst prev hget p hp
        exact ⟨hle.1.trans_lt hlt.1,hle.2.trans_lt hlt.2⟩
      refine ⟨pairwise_cons.mpr ⟨hless,hsorted⟩,?_,?_⟩
      · intro p hp
        obtain rfl | hp := mem_cons.mp hp
        · exact hkept
        · exact hall p hp
      · intro other hother p hp
        obtain rfl : pair=other := some.inj (hpair.symm.trans hother)
        obtain rfl | hp := mem_cons.mp hp
        · exact ⟨le_refl _,le_refl _⟩
        · exact ⟨(hless p hp).1.le,(hless p hp).2.le⟩

/-- Shifts between sorted rows run from the first new row less the last old row. -/
theorem shift_slots {firstOld lastOld firstNew lastNew : Nat}
    (hsortedOld : Rising old) (hsorted : Rising new)
    (hfirst : old.head?=some firstOld) (hlast : old.getLast?=some lastOld)
    (hfirst' : new.head?=some firstNew) (hlast' : new.getLast?=some lastNew) :
    ∀ o∈old, ∀ n∈new, (firstNew : Int)-lastOld≤(n : Int)-o ∧
      ((n : Int)-o-((firstNew : Int)-lastOld)).toNat <
        ((lastNew : Int)-firstOld-((firstNew : Int)-lastOld)+1).toNat := by
  have hge {items : List Nat} {first m : Nat} (hsorted : Rising items)
      (hfirst : items.head?=some first) (hm : m∈items) : first ≤ m := by
    obtain ⟨rest,rfl⟩ := head?_eq_some_iff.mp hfirst
    obtain rfl | hrest := mem_cons.mp hm
    · exact le_refl _
    · exact ((pairwise_cons.mp hsorted).1 m hrest).le
  have hle {items : List Nat} {last m : Nat} (hsorted : Rising items)
      (hlast : items.getLast?=some last) (hm : m∈items) : m≤last := by
    obtain ⟨init,rfl⟩ := getLast?_eq_some_iff.mp hlast
    obtain hinit | hlast := mem_append.mp hm
    · exact ((pairwise_append.mp hsorted).2.2 m hinit last (by simp)).le
    · exact (mem_singleton.mp hlast).le
  intro o ho n hn
  have h1 := hge hsortedOld hfirst ho
  have h2 := hle hsortedOld hlast ho
  have h3 := hge hsorted hfirst' hn
  have h4 := hle hsorted hlast' hn
  omega

theorem keepPlaces_sound (hold : Rising old) (hnew : Rising new) :
    Parallel (keepPlaces old new kept fixed) ∧
      ∀ p∈keepPlaces old new kept fixed, KeptPair old new kept p.1 p.2 := by
  simp only [keepPlaces,keepBy,id_eq]
  split
  next firstOld lastOld firstNew lastNew hfirst hlast hfirst' hlast' =>
    have hlow : ∀ o∈old, ∀ n∈new, (firstNew : Int)-lastOld≤(n : Int)-o :=
      fun o ho n hn => (shift_slots hold hnew hfirst hlast hfirst' hlast' o ho n hn).1
    have hlinked (span : Nat) : Linked old new kept (sweepRows id old new kept
        ((firstNew : Int)-lastOld) fixed (replicate span noCell)).found :=
      sweepRows_linked hold hnew hlow span
    obtain ⟨hsorted,hall,-⟩ := traceBack_sound (hlinked _) _ _
    refine ⟨pairwise_reverse.mpr hsorted,?_⟩
    intro p hp
    exact hall p (mem_reverse.mp hp)
  · simp

variable {old new : List (Nat × Likeness)} {weight : Nat → Nat → Option Int}

theorem pairWalk_mem {table : List (List Int)} {fuel a b : Nat} {p : Nat × Nat}
    (h : p∈pairWalk old new weight table fuel a b) :
    p.1∈(old.drop a).map (·.1) ∧ p.2∈(new.drop b).map (·.1) := by
  induction fuel generalizing a b with
  | zero => simp [pairWalk] at h
  | succ fuel ih =>
    simp only [pairWalk] at h
    have hnext {items : List (Nat × Likeness)} {index row : Nat}
        (h : row∈(items.drop (index+1)).map (·.1)) : row∈(items.drop index).map (·.1) := by
      rw [← drop_drop] at h
      exact map_subset _ (drop_subset _ _) h
    split at h
    next oldRow oldLike newRow newLike hold hnew =>
      obtain ⟨hlt,hget⟩ := List.getElem?_eq_some_iff.mp hold
      obtain ⟨hlt',hget'⟩ := List.getElem?_eq_some_iff.mp hnew
      split at h
      · obtain rfl | h := mem_cons.mp h
        · rw [drop_eq_getElem_cons hlt,drop_eq_getElem_cons hlt',hget,hget']
          simp
        · exact ⟨hnext (ih h).1,hnext (ih h).2⟩
      · split at h
        · exact ⟨hnext (ih h).1,(ih h).2⟩
        · exact ⟨(ih h).1,hnext (ih h).2⟩
    · simp at h

theorem pairWalk_sorted {table : List (List Int)} (hold : Rising (old.map (·.1)))
    (hnew : Rising (new.map (·.1))) (fuel a b : Nat) :
    Parallel (pairWalk old new weight table fuel a b) := by
  have hbefore {items : List (Nat × Likeness)} {index row later : Nat} {like : Likeness}
      (hsorted : Rising (items.map (·.1))) (hrow : items[index]?=some (row,like))
      (hlater : later∈(items.drop (index+1)).map (·.1)) : row<later := by
    have hdrop : Rising ((items.drop index).map (·.1)) := by
      rw [map_drop]
      exact hsorted.drop
    obtain ⟨hlt,hget⟩ := List.getElem?_eq_some_iff.mp hrow
    rw [drop_eq_getElem_cons hlt,hget,map_cons] at hdrop
    exact (pairwise_cons.mp hdrop).1 later hlater
  induction fuel generalizing a b with
  | zero => simp [pairWalk]
  | succ fuel ih =>
    simp only [pairWalk]
    split
    next oldRow oldLike newRow newLike ho hn =>
      split
      · refine pairwise_cons.mpr ⟨fun q hq => ?_,ih _ _⟩
        exact ⟨hbefore hold ho (pairWalk_mem hq).1,hbefore hnew hn (pairWalk_mem hq).2⟩
      split
      · exact ih _ _
      · exact ih _ _
    · exact List.Pairwise.nil

theorem pairBy_sound (isize : Int → Int) (prefer : Int)
    (hold : Rising (old.map (·.1))) (hnew : Rising (new.map (·.1))) :
    Parallel (pairBy isize old new prefer) ∧
      ∀ p∈pairBy isize old new prefer, p.1∈old.map (·.1) ∧ p.2∈new.map (·.1) := by
  refine ⟨pairWalk_sorted hold hnew _ 0 0,?_⟩
  intro p hp
  simpa using pairWalk_mem hp

end Verbatim.Terminal
