import Verbatim.Terminal.Optimal
import Verbatim.Terminal.UniqueRows
import Verbatim.Terminal.Anchors

namespace Verbatim.Terminal

open TerminalMemory Framework List Tables Nat

/-- The rows of a read are the memory's without the first `k`, and rows with other texts. -/
structure Rotated (memory : Screen) (rows : List Row) (k : Nat) : Prop where
  texts : ∀ source < memory.rows.length, hasText memory.rows source=true
  same : ∀ source target, sameHash memory.rows source rows target=true ↔
    target+k=source ∧ source < memory.rows.length
  newTexts : ∀ target, target+k < memory.rows.length → hasText rows target=true

def rotatedPairs (n k : Nat) : Pairs := (List.range (n-k)).map fun j => (j+k,j)

theorem mem_rotatedPairs {n k : Nat} {p : Nat × Nat} : p∈rotatedPairs n k ↔ p.2+k=p.1 ∧ p.1<n := by
  rw [rotatedPairs,mem_map]
  constructor
  · rintro ⟨j,hj,rfl⟩
    have := mem_range.mp hj
    exact ⟨rfl,by simp only; omega⟩
  · rintro ⟨heq,hlt⟩
    exact ⟨p.2,mem_range.mpr (by omega),Prod.ext heq rfl⟩

theorem shiftOf_rotatedPairs {n k : Nat} {p : Nat × Nat} (hp : p∈rotatedPairs n k) :
    shiftOf p = -(k : Int) := by
  have := mem_rotatedPairs.mp hp
  simp only [shiftOf]
  omega

theorem rotatedPairs_sorted (n k : Nat) :
    Parallel (rotatedPairs n k) := by
  rw [rotatedPairs,Parallel,pairwise_map]
  exact pairwise_lt_range.imp fun h => ⟨Nat.add_lt_add_right h k,h⟩

theorem commonestShift_straight {pairs : Pairs} {shift : Int} (base : Int)
    (hne : pairs≠[]) (hall : ∀ p∈pairs, shiftOf p=shift) : commonestShift pairs base=shift := by
  unfold commonestShift
  cases pairs with
  | nil => exact absurd rfl hne
  | cons p pairs =>
    simp only [map_cons]
    refine foldl_invariant (fun best => best=shift) (hall p (by simp)) ?_
    intro other hother best hbest
    obtain ⟨q,hq,rfl⟩ := mem_map.mp hother
    split
    · exact hall q (mem_cons_of_mem _ hq)
    · exact hbest

variable {memory : Screen} {rows : List Row} {read : Read} {caret : Option Nat} {k : Nat}

theorem textRows_eq_range (h : ∀ source < memory.rows.length, hasText memory.rows source=true) :
    textRows memory.rows=range memory.rows.length :=
  filter_eq_self.mpr fun source hsource => h source (mem_range.mp hsource)

theorem not_grows (source target : Nat) : grows memory rows false source target=false := by
  unfold grows
  split <;> simp

/-- The kept start was accepted, so a history row's place is where it was. -/
@[mk_iff]
structure FromKeptStart (memory : Screen) (read : Read) : Prop where
  fromStart : read.fromStart=true
  shrank : read.shrank=false
  above : read.above=memory.next-memory.skipped

theorem FromKeptStart.base (h : FromKeptStart memory read) : baseShift memory read=0 := by
  rw [baseShift,h.above]
  omega

theorem FromKeptStart.place (h : FromKeptStart memory read) : historyPlace memory read=0 := by
  rw [historyPlace,if_pos ⟨by simp [h.shrank],h.fromStart⟩,h.base]

theorem Rotated.keepsAt (h : Rotated memory rows k) (hstart : FromKeptStart memory read)
    (source target : Nat) : keepsAt memory rows read false source target=true ↔
      target+k=source ∧ source < memory.rows.length := by
  rw [← h.same source target]
  simp only [Terminal.keepsAt,Bool.false_eq_true,false_and,if_false,not_grows,Bool.and_false,
    Bool.or_false,hstart.place]
  split
  next hlower =>
    refine ⟨fun hkeeps => (Bool.and_eq_true _ _ ▸ hkeeps).1,fun hsame => ?_⟩
    have := (h.same source target).mp hsame
    omega
  · exact Iff.rfl

theorem Rotated.mem_window (h : Rotated memory rows k) {target : Nat} :
    target∈keepWindow memory rows read false ↔ target+k < memory.rows.length := by
  have hhash {row : Row} (hrow : rows[target]?=some row) :
      row.hash∈hashes memory.rows (textRows memory.rows) ↔ target+k < memory.rows.length := by
    rw [hashes,mem_filterMap,textRows_eq_range h.texts]
    constructor
    · rintro ⟨source,-,hsource⟩
      obtain ⟨old,hold,heq⟩ := Option.map_eq_some_iff.mp hsource
      have := (h.same source target).mp (sameHash_iff.mpr ⟨old,row,hold,hrow,heq⟩)
      omega
    · intro hlt
      obtain ⟨old,new,hold,hnew,heq⟩ := sameHash_iff.mp ((h.same _ target).mpr ⟨rfl,hlt⟩)
      obtain rfl := Option.some.inj (hrow.symm.trans hnew)
      exact ⟨target+k,mem_range.mpr hlt,by rw [hold,Option.map_some,heq]⟩
  rw [keepWindow,mem_filter,Option.any_eq_true]
  simp only [not_grows,Bool.and_false,Bool.or_false,Bool.and_eq_true,decide_eq_true_eq,
    Bool.not_eq_true',mem_range]
  constructor
  · rintro ⟨-,row,hrow,-,hmem⟩
    exact (hhash hrow).mp hmem
  intro hlt
  obtain ⟨row,hrow,htext⟩ := hasText_iff.mp (h.newTexts target hlt)
  exact ⟨(List.getElem?_eq_some_iff.mp hrow).1,row,hrow,htext,(hhash hrow).mpr hlt⟩

theorem keepRows_cells (old window : List Nat) (keeps : Nat → Nat → Bool) (fixed : Int) :
    ∃ kept, keepRows old window keeps fixed=keepPlaces old window kept fixed ∧
      ∀ i j, kept i j=true ↔ ∃ source target, old[i]?=some source ∧
        window[j]?=some target ∧ keeps source target=true := by
  refine ⟨_,rfl,fun i j => ?_⟩
  cases old[i]? <;> cases window[j]? <;> simp

theorem keptCells_eq_zero {kept : Nat → Bool} (width : Nat) (h : ∀ j, kept j≠true) :
    keptCells kept width=0 :=
  countP_eq_zero.mpr fun j _ => h j

theorem keptCells_le_one {kept : Nat → Bool} (width : Nat)
    (h : ∀ j other, kept j=true → kept other=true → other=j) : keptCells kept width≤1 := by
  by_cases hany : ∃ j, kept j=true
  · obtain ⟨j,hj⟩ := hany
    calc keptCells kept width ≤ (range width).countP (· == j) :=
          countP_mono_left (fun other _ hother => beq_iff_eq.mpr (h j other hj hother))
      _≤1 := nodup_iff_count_le_one.mp nodup_range j
  · rw [keptCells_eq_zero width (not_exists.mp hany)]
    exact zero_le 1

theorem keptRowCells_le {kept : Nat → Nat → Bool} {window : List Nat}
    (hsorted : Rising window) (h : ∀ i j, kept i j=true → window[j]?=some (i-k) ∧ k ≤ i)
    (i : Nat) : keptRowCells kept window.length i ≤ i-k := by
  induction i with
  | zero => simp [keptRowCells]
  | succ i ih =>
    rw [keptRowCells_succ]
    by_cases hle : k ≤ i
    · have hone := keptCells_le_one window.length (fun j other hj hother =>
        sorted_index hsorted (h i other hother).1 (h i j hj).1)
      omega
    · rw [keptCells_eq_zero window.length fun j hcell => hle (h i j hcell).2]
      omega

theorem Rotated.keptPairs (h : Rotated memory rows k) (hstart : FromKeptStart memory read)
    (hfew : memory.rows.length-k≤2^21) :
    keptPairs memory rows read false=rotatedPairs memory.rows.length k := by
  have hsortedOld : Rising (textRows memory.rows) := textRows_sorted memory.rows
  have hsorted : Rising (keepWindow memory rows read false) := pairwise_lt_range.filter _
  obtain ⟨kept,heq,hkept⟩ := keepRows_cells (textRows memory.rows)
    (keepWindow memory rows read false) (Terminal.keepsAt memory rows read false)
    (baseShift memory read)
  have hpair {p : Nat × Nat} : KeptPair (textRows memory.rows) (keepWindow memory rows read false)
      kept p.1 p.2 ↔ p∈rotatedPairs memory.rows.length k := by
    rw [mem_rotatedPairs]
    constructor
    · rintro ⟨i,j,hold,hnew,hcell⟩
      obtain ⟨source,target,hold',hnew',hkeeps⟩ := (hkept i j).mp hcell
      obtain rfl := Option.some.inj (hold.symm.trans hold')
      obtain rfl := Option.some.inj (hnew.symm.trans hnew')
      exact (h.keepsAt hstart _ _).mp hkeeps
    · intro hpair
      have hold : p.1∈textRows memory.rows := by
        rw [textRows_eq_range h.texts]
        exact mem_range.mpr hpair.2
      have hnew : p.2∈keepWindow memory rows read false := h.mem_window.mpr (by omega)
      obtain ⟨i,hi⟩ := getElem?_of_mem hold
      obtain ⟨j,hj⟩ := getElem?_of_mem hnew
      exact ⟨i,j,hi,hj,(hkept i j).mpr ⟨_,_,hi,hj,(h.keepsAt hstart _ _).mpr hpair⟩⟩
  have hlen : (keepWindow memory rows read false).length ≤ memory.rows.length-k := by
    have hnodup : (keepWindow memory rows read false).Nodup := hsorted.imp fun h => h.ne
    have hsub : keepWindow memory rows read false⊆List.range (memory.rows.length-k) := by
      intro target htarget
      have := h.mem_window.mp htarget
      exact mem_range.mpr (by omega)
    simpa using (subperm_of_subset hnodup hsub).length_le
  have hshort : Short (textRows memory.rows) (keepWindow memory rows read false) kept :=
    fun pairs htrail => (htrail.length_le.trans hlen).trans hfew
  have hcells : keptRowCells kept (keepWindow memory rows read false).length
      (textRows memory.rows).length≤noPair := by
    have hle := keptRowCells_le (k := k) hsorted (fun i j hcell => by
      obtain ⟨source,target,hold,hnew,hkeeps⟩ := (hkept i j).mp hcell
      rw [textRows_eq_range h.texts] at hold
      obtain ⟨_,hsource⟩ := List.getElem?_eq_some_iff.mp hold
      rw [getElem_range] at hsource
      have := (h.keepsAt hstart _ _).mp hkeeps
      exact ⟨by rw [hnew]; congr 1; omega,by omega⟩) (textRows memory.rows).length
    rw [textRows_eq_range h.texts,length_range] at hle ⊢
    rw [noPair]
    omega
  have htrail : Trail (textRows memory.rows) (keepWindow memory rows read false) kept
      (rotatedPairs memory.rows.length k).reverse :=
    ⟨pairwise_reverse.mpr (rotatedPairs_sorted _ _),fun p hp => hpair.mpr (mem_reverse.mp hp)⟩
  rw [Terminal.keptPairs,heq,keepPlaces_eq_of_straight hshort hsortedOld hsorted hcells htrail
    (fun p hp => mem_reverse.mpr (hpair.mp hp))
    fun p hp => shiftOf_rotatedPairs (mem_reverse.mp hp),reverse_reverse]

/-- How a rotation by `k` is finished: the rows were found by text, `k` further up. -/
structure How.Rotates (how : How) (k : Nat) : Prop where
  fixed : how.fixed = -k
  free : how.free=true
  whole : how.whole=false
  shown : how.shown=[]

section Passes

variable {how : How} {source target : Nat}

/-- The tables once the rows the rotation carried are kept. -/
def rotatedTables (memory : Screen) (rows : List Row) (k : Nat) (how : How) : Tables :=
  keepPairs memory rows (rotatedPairs memory.rows.length k) how (fresh memory.rows rows)

theorem How.Rotates.placeOf (hhow : how.Rotates k) (source : Nat) :
    how.placeOf source=(source : Int)-k := by
  rw [How.placeOf,hhow.fixed]
  omega

theorem rotatedTables_gone (hlt : source<k) (hlen : source < memory.rows.length) :
    (rotatedTables memory rows k how).old[source]?=some (.gone false) := by
  refine (putAll_old_same fun p hp => ?_).trans ?_
  · have := mem_rotatedPairs.mp hp
    omega
  · exact isGone_iff.mp (fresh_isGone hlen)

theorem rotatedTables_new (hle : memory.rows.length≤target+k) (hlt : target<rows.length) :
    (rotatedTables memory rows k how).new[target]?=some .new := by
  refine (putAll_new_same fun p hp => ?_).trans ?_
  · have := mem_rotatedPairs.mp hp
    omega
  · exact isNew_iff.mp (fresh_isNew hlt)

theorem commonestShift_rotatedPairs (n k : Nat) (which : Nat × Nat → Bool) :
    commonestShift ((rotatedPairs n k).filter which) 0≤0 := by
  by_cases hnil : (rotatedPairs n k).filter which=[]
  · rw [hnil]
    exact le_rfl
  rw [commonestShift_straight 0 hnil fun p hp =>
    shiftOf_rotatedPairs (mem_filter.mp hp).1]
  omega

theorem Rotated.showTop (hhow : how.Rotates k) (hrefused : isRefused read how=false) (t : Tables) :
    showTop rows read (rotatedPairs memory.rows.length k) how t=t := by
  simp only [Terminal.showTop,hhow.whole,hhow.free,hrefused,Bool.false_eq_true,if_false,
    Bool.not_false,and_self,if_true]
  rw [Int.toNat_of_nonpos (commonestShift_rotatedPairs _ _ _),zero_min]
  rfl

theorem pairPlaces_nil (new : List (Nat × Likeness)) (prefer : Int) :
    pairPlaces [] new prefer=[] := by
  unfold pairPlaces pairBy
  cases new with
  | nil => rfl
  | cons first new =>
    simp only [length_nil,length_cons,zero_add]
    rw [pairWalk]
    simp

theorem rewriteCaret_free (hhow : how.Rotates k) (t : Tables) :
    rewriteCaret memory rows read caret how t=t := by
  unfold rewriteCaret
  split
  · simp [hhow.free]
  · rfl

variable (h : Rotated memory rows k)

include h

theorem Rotated.keptRows (fixed : Int) :
    KeptRows memory.rows rows fixed (rotatedPairs memory.rows.length k) := by
  refine ⟨rotatedPairs_sorted _ _,fun p hp => ?_,fun p hp => .inl ?_⟩
  · obtain ⟨heq,hlt⟩ := mem_rotatedPairs.mp hp
    exact ⟨h.texts p.1 hlt,hasText_lt (h.newTexts p.2 (by omega))⟩
  · exact (h.same p.1 p.2).mpr (mem_rotatedPairs.mp hp)

theorem Rotated.tables_sound : (rotatedTables memory rows k how).Sound memory.rows rows how.fixed :=
  (keepPairs_turned (h.keptRows how.fixed)).sound (fresh_sound _ _ _)

theorem Rotated.keepBlanks (t : Tables) (kept : Pairs) :
    keepBlanks memory rows kept how t=t := by
  refine foldl_invariant (fun s : Tables × Pairs × Option Int => s.1=t) rfl ?_
  rintro source hsource ⟨t',placed,shiftAbove⟩ heq
  rw [h.texts source (mem_range.mp hsource)]
  exact heq

variable (hhow : how.Rotates k)

include hhow

theorem Rotated.new_kept (hlt : target+k < memory.rows.length) :
    (rotatedTables memory rows k how).new[target]?=some (.kept (target+k) false) := by
  have hmem : (target+k,target)∈rotatedPairs memory.rows.length k := mem_rotatedPairs.mpr ⟨rfl,hlt⟩
  have hbound : target<(fresh memory.rows rows).new.length := by
    simpa [fresh] using hasText_lt (h.newTexts target hlt)
  refine (putAll_new_mem (rotatedPairs_sorted _ _) hmem hbound).trans ?_
  rw [if_pos ((h.same _ _).mpr ⟨rfl,hlt⟩),hhow.placeOf]
  simp

theorem Rotated.old_kept (hlt : target+k < memory.rows.length) :
    (rotatedTables memory rows k how).old[target+k]?=some (.kept target) :=
  h.tables_sound.kept_iff.mpr (.inl ⟨false,h.new_kept hhow hlt⟩)

theorem Rotated.lt_of_gone
    (hgone : (rotatedTables memory rows k how).isGone source=true) : source<k := by
  by_contra hge
  obtain ⟨target,rfl⟩ : ∃ target, source=target+k := ⟨source - k,by omega⟩
  rw [isGone_iff] at hgone
  have hlt : target+k < memory.rows.length := by
    have := (List.getElem?_eq_some_iff.mp hgone).1
    rwa [h.tables_sound.olds] at this
  rw [h.old_kept hhow hlt] at hgone
  cases hgone

theorem Rotated.keepNearest :
    keepNearest memory rows how (rotatedTables memory rows k how) =
      rotatedTables memory rows k how := by
  refine foldl_fixed (f := keepNearestOne memory rows how) fun source hsource => ?_
  have hgone := (mem_goneRows.mp hsource).2.1
  have hnone : nearestFor memory rows how (rotatedTables memory rows k how) source=none := by
    rw [Option.eq_none_iff_forall_ne_some]
    intro target htarget
    have hsame := (h.same source target).mp (nearestFor_spec htarget).1
    have := h.lt_of_gone hhow hgone
    omega
  rw [keepNearestOne,hnone]

theorem Rotated.keepGrown (kept : Pairs) :
    keepGrown memory rows kept how (rotatedTables memory rows k how) =
      rotatedTables memory rows k how := by
  unfold Terminal.keepGrown
  split
  · refine foldl_fixed (fun source _ => ?_)
    rw [if_neg]
    rintro ⟨hplace,-,hgone,-⟩
    have := h.lt_of_gone hhow hgone
    rw [hhow.placeOf] at hplace
    omega
  · rfl

theorem Rotated.pairRewritten (kept : Pairs) :
    pairRewritten memory rows kept how (rotatedTables memory rows k how) =
      rotatedTables memory rows k how := by
  have hgap (start stop : Nat) : gapRows memory.rows start stop (fun source =>
      decide (how.history ≤ source ∧ 0≤how.placeOf source ∧
        (rotatedTables memory rows k how).isGone source=true ∧
        hasText memory.rows source=true))=[] := by
    rw [gapRows,filter_eq_nil_iff.mpr,filterMap_nil]
    intro source _ hleft
    obtain ⟨-,hplace,hgone,-⟩ := of_decide_eq_true hleft
    have := h.lt_of_gone hhow hgone
    rw [hhow.placeOf] at hplace
    omega
  unfold Terminal.pairRewritten
  split
  · rfl
  refine foldl_fixed fun gap _ => ?_
  simp only [pairGap]
  rw [hgap,pairPlaces_nil]
  rfl

/-- Past the rows kept, the passes of a rotation's alignment change nothing. -/
theorem Rotated.matchRows (caret : Option Nat) (hrefused : isRefused read how=false) :
    matchRows memory rows read caret (rotatedPairs memory.rows.length k) how =
      rotatedTables memory rows k how := by
  have hshown : how.shown.foldl (fun t target => t.markShown target)
      (rotatedTables memory rows k how)=rotatedTables memory rows k how := by
    rw [hhow.shown]
    rfl
  change rewriteCaret memory rows read caret how (Terminal.pairRewritten memory rows _ how
    (Terminal.showTop rows read _ how (Terminal.keepBlanks memory rows _ how
      (Terminal.keepGrown memory rows _ how (Terminal.keepNearest memory rows how
        (how.shown.foldl (fun t target => t.markShown target)
          (rotatedTables memory rows k how)))))))=_
  rw [hshown,h.keepNearest hhow,h.keepGrown hhow,h.keepBlanks,Rotated.showTop hhow hrefused,
    h.pairRewritten hhow,rewriteCaret_free hhow]

theorem Rotated.settled_new (hrefused : isRefused read how=false) (target : Nat) :
    (settled memory rows read caret (rotatedPairs memory.rows.length k) how).new[target]? =
      (rotatedTables memory rows k how).new[target]? := by
  have hmatch := h.matchRows hhow caret hrefused
  obtain hsame | ⟨source,alone,_,hwas,-⟩ := getElem?_markAlone how
    (Terminal.matchRows memory rows read caret (rotatedPairs memory.rows.length k) how) target
  · exact hsame.trans (by rw [hmatch])
  rw [hmatch] at hwas
  -- no row of a rotation is rewritten
  obtain hlt | hge := lt_or_ge (target+k) memory.rows.length
  · rw [h.new_kept hhow hlt] at hwas
    cases hwas
  have hlen := (List.getElem?_eq_some_iff.mp hwas).1
  rw [h.tables_sound.news] at hlen
  rw [rotatedTables_new hge hlen] at hwas
  cases hwas

/-- What became of the old rows: those carried off are above the read, or out of the buffer. -/
theorem Rotated.settled_old
    (hrefused : isRefused read how=false) (hlt : source < memory.rows.length) :
    (settled memory rows read caret (rotatedPairs memory.rows.length k) how).old[source]? =
      some (if source<k then if read.atDocumentStart then .left else .above
        else .kept (source-k)) := by
  have hmatch := h.matchRows hhow caret hrefused
  have hfate : (rotatedTables memory rows k how).old[source]? =
      some (if source<k then .gone false else .kept (source-k)) := by
    split
    next hless => exact rotatedTables_gone hless hlt
    next hge =>
      obtain ⟨target,rfl⟩ : ∃ target, source=target+k := ⟨source - k,by omega⟩
      rw [h.old_kept hhow hlt,Nat.add_sub_cancel]
  simp only [settled,linger,markAlone,hmatch,getElem?_map,getElem?_zipIdx,
    zip_eq_zipWith,getElem?_zipWith,hfate,getElem?_eq_getElem hlt,
    Option.map_some,Nat.zero_add]
  split
  next hless =>
    rw [if_neg (by simp),if_pos (by rw [hhow.placeOf]; omega)]
  · rw [if_pos (by simp)]

end Passes

theorem votes_once {slots : List Nat} {slot best : Nat} (span : Nat)
    (hall : ∀ other∈slots, other=slot) (hbest : 0<best) :
    (((range span).map fun slot => slots.count slot).filter (·=best)).length≤1 := by
  rw [filter_map,length_map]
  calc ((range span).filter _).length≤((range span).filter (· == slot)).length := by
        refine (monotone_filter_right _ fun other hother => ?_).length_le
        have hcount : slots.count other=best := of_decide_eq_true hother
        exact beq_iff_eq.mpr (hall other (count_pos_iff.mp (hcount ▸ hbest)))
    _≤1 := by
        rw [← countP_eq_length_filter]
        exact nodup_iff_count_le_one.mp nodup_range slot

theorem Rotated.votes (h : Rotated memory rows k) (oldStart oldStop start stop : Nat) :
    ∃ (slots : List Nat) (slot span : Nat), (∀ other∈slots, other=slot) ∧
      (shiftVotes memory.rows oldStart oldStop rows start stop).2 =
        (range span).map fun slot => slots.count slot := by
  unfold shiftVotes
  simp only
  split
  · exact ⟨[],0,0,by simp,rfl⟩
  refine ⟨_,(-(k : Int)-((start : Int)-oldStop+1)).toNat,_,?_,rfl⟩
  intro other hother
  obtain ⟨target,-,hother⟩ := mem_flatMap.mp hother
  obtain ⟨source,hsource,rfl⟩ := mem_map.mp hother
  obtain ⟨old,hold,hcast⟩ := mem_flatMap.mp hsource
  obtain rfl := mem_singleton.mp hcast
  have hsame := (h.same old target).mp (mem_filter.mp hold).2
  congr 1
  omega

theorem Rotated.not_ambiguous (h : Rotated memory rows k) (start stop : Nat) :
    ambiguous memory rows start stop=false := by
  simp only [ambiguous]
  obtain ⟨slots,slot,span,hall,hcounts⟩ := h.votes 0
    (min memory.rows.length (memory.caretIndex.getD memory.rows.length+1)) start stop
  rw [hcounts]
  generalize hbest : ((range span).map fun slot => slots.count slot).max?.getD 0=best
  obtain rfl | hpos := Nat.eq_zero_or_pos best
  · rfl
  have honce := votes_once span hall hpos
  simp only [Bool.and_eq_false_iff,decide_eq_false_iff_not,not_lt]
  exact .inr honce

/-- A read of the memory's rows without the first `k` and of rows with other texts, a row's hash
being its text's. -/
@[mk_iff]
structure RotatedRead (current : Screen) (rows : List Row) (k : Nat) : Prop where
  carried : 1≤k
  texts : ∀ row∈current.rows++rows, row.isBlank=false
  hashes : ∀ row∈current.rows++rows, ∀ other∈current.rows++rows,
    row.hash=other.hash ↔ row.text=other.text
  distinct : (current.rows.map (·.text)).Nodup
  moved : (rows.take (current.rows.length-k)).map (·.text)=(current.rows.drop k).map (·.text)
  appended : ∀ row∈rows.drop (current.rows.length-k), row.text∉current.rows.map (·.text)

section Rows

variable {current : Screen}

theorem RotatedRead.text_eq (h : RotatedRead current rows k) {target : Nat}
    (hlt : target+k<current.rows.length) :
    rows[target]?.map (·.text)=current.rows[target+k]?.map (·.text) := by
  have heq := congrArg (·[target]?) h.moved
  simp only [getElem?_map] at heq
  rwa [getElem?_take_of_lt (by omega),getElem?_drop,add_comm k] at heq

theorem RotatedRead.source_eq (h : RotatedRead current rows k) {source other : Nat} {row row' : Row}
    (hrow : current.rows[source]?=some row) (hrow' : current.rows[other]?=some row')
    (htext : row.text=row'.text) : source=other := by
  have hlt := (List.getElem?_eq_some_iff.mp hrow).1
  refine (getElem?_inj (by simpa using hlt) h.distinct).mp ?_
  rw [getElem?_map,getElem?_map,hrow,hrow',Option.map_some,Option.map_some,htext]

theorem RotatedRead.rotated (h : RotatedRead current rows k) : Rotated current rows k := by
  have hold {source : Nat} {row : Row} (hrow : current.rows[source]?=some row) :
      row∈current.rows++rows := mem_append_left _ (mem_of_getElem? hrow)
  have hnew {target : Nat} {row : Row} (hrow : rows[target]?=some row) :
      row∈current.rows++rows := mem_append_right _ (mem_of_getElem? hrow)
  have hcarried {target : Nat} (hlt : target+k<current.rows.length) :
      ∃ old new, current.rows[target+k]?=some old ∧ rows[target]?=some new ∧ old.text=new.text := by
    have heq := h.text_eq hlt
    rw [getElem?_eq_getElem hlt,Option.map_some] at heq
    obtain ⟨new,hget,htext⟩ := Option.map_eq_some_iff.mp heq
    exact ⟨_,new,getElem?_eq_getElem hlt,hget,htext.symm⟩
  refine ⟨?_,?_,?_⟩
  · intro source hlt
    exact hasText_iff.mpr ⟨_,getElem?_eq_getElem hlt,h.texts _ (hold (getElem?_eq_getElem hlt))⟩
  · intro source target
    rw [sameHash_iff]
    constructor
    · rintro ⟨old,new,hrow,hrow',hhash⟩
      have htext := (h.hashes old (hold hrow) new (hnew hrow')).mp hhash
      obtain hlt | hge := lt_or_ge (target+k) current.rows.length
      · obtain ⟨old',new',hrow₁,hrow₂,htext'⟩ := hcarried hlt
        obtain rfl := Option.some.inj (hrow'.symm.trans hrow₂)
        obtain rfl := h.source_eq hrow hrow₁ (htext.trans htext'.symm)
        exact ⟨rfl,hlt⟩
      · refine absurd ?_ (h.appended new ?_)
        · exact mem_map.mpr ⟨old,mem_of_getElem? hrow,htext⟩
        · refine mem_of_getElem? (i := target-(current.rows.length-k)) ?_
          rw [getElem?_drop,Nat.add_sub_cancel' (by omega),hrow']
    · rintro ⟨rfl,hlt⟩
      obtain ⟨old,new,hrow,hrow',htext⟩ := hcarried hlt
      exact ⟨old,new,hrow,hrow',(h.hashes old (hold hrow) new (hnew hrow')).mpr htext⟩
  · intro target hlt
    obtain ⟨_,new,-,hrow',-⟩ := hcarried hlt
    exact hasText_iff.mpr ⟨new,hrow',h.texts new (hnew hrow')⟩

theorem Rotated.not_trusted {read : Read} (h : Rotated current rows k) (hk : 1≤k)
    (hsurvives : k<current.rows.length) (hstart : FromKeptStart current read)
    (hblock : 0<read.above) (hheld : read.above≤rows.length) :
    isTrusted current rows read=false := by
  have hfirst : ∃ old, current.rows[0]?=some old := ⟨_,getElem?_eq_getElem (by omega)⟩
  obtain ⟨old,hold⟩ := hfirst
  obtain ⟨new,hnew⟩ : ∃ new, rows[0]?=some new := ⟨_,getElem?_eq_getElem (by omega)⟩
  have hne : old.hash≠new.hash := by
    intro heq
    have := (h.same 0 0).mp (sameHash_iff.mpr ⟨old,new,hold,hnew,heq⟩)
    omega
  rw [isTrusted,Bool.and_eq_false_iff]
  refine .inr ?_
  simp only [positions,Bool.and_eq_false_iff]
  refine .inl ?_
  rw [all_eq_false]
  refine ⟨(old,new),mem_filterMap.mpr ⟨(new,0),?_,?_⟩,by simpa using hne⟩
  · refine mem_of_getElem? (i := 0) ?_
    rw [getElem?_zipIdx,getElem?_take_of_lt (by omega),hnew]
    rfl
  · have hzero : ((current.next-current.skipped : Nat) : Int) -
        (min read.above rows.length : Nat)+(0 : Nat)=0 := by
      rw [min_eq_left hheld,hstart.above]
      omega
    rw [hzero,if_pos le_rfl]
    simp [hold]

structure AlignedRotation (current : Screen) (rows : List Row) (read : Read) (k : Nat)
    (aligned : Aligned) : Prop where
  old : ∀ source<current.rows.length, aligned.old[source]? =
    some (if source<k then if read.atDocumentStart then .left else .above else .kept (source-k))
  kept : ∀ target, target+k<current.rows.length → aligned.new[target]?=some (.kept (target+k) false)
  appended : ∀ (target : Nat) (row : Row), current.rows.length≤target+k →
    rows[target]?=some row → aligned.new[target]?=some .new ∨
      ∃ moved, aligned.new[target]?=some (.returned moved) ∧
        ∃ gone∈unexpired current read, gone.row.hash=row.hash
  rotation : aligned.rotation=k
  certain : aligned.ambiguous=false

theorem takeBack_returned {lingering : List (Int × Nat)} {pairs : List (NewRow × Row)}
    {start index : Nat} {row : Row} {moved : Bool} (hpair : pairs[index]?=some (.new,row))
    (h : (takeBack lingering pairs start)[index]?=some (.returned moved)) :
    ∃ gone∈lingering, gone.2=row.hash := by
  induction pairs generalizing lingering start index with
  | nil => cases hpair
  | cons pair pairs ih =>
    simp only [takeBack] at h
    split at h
    · cases index with
      | zero =>
        cases hpair
        cases h
      | succ index => exact ih hpair h
    split at h
    next found hfound =>
      cases index with
      | zero =>
        cases hpair
        have hhash := (mem_filter.mp (firstMin_mem hfound)).2
        obtain ⟨gone,hgone,heq⟩ := (Option.any_eq_true _ _).mp hhash
        exact ⟨gone,mem_of_getElem? hgone,of_decide_eq_true heq⟩
      | succ index =>
        obtain ⟨gone,hgone,heq⟩ := ih hpair h
        exact ⟨gone,mem_of_mem_eraseIdx hgone,heq⟩
    · cases index with
      | zero =>
        cases hpair
        cases h
      | succ index => exact ih hpair h

theorem Rotated.readHow (h : Rotated current rows k) (hstart : FromKeptStart current read)
    (hsurvives : k<current.rows.length) (hfew : current.rows.length-k≤2^21) :
    (readHow current rows read false).Rotates k ∧
      (Terminal.readHow current rows read false).rotation=k := by
  have hne : rotatedPairs current.rows.length k≠[] :=
    ne_nil_of_mem (mem_rotatedPairs (p := (k,0)).mpr ⟨zero_add k,hsurvives⟩)
  have hfixed : fixedShift current rows read false = -(k : Int) := by
    rw [fixedShift,if_neg (by simp),h.keptPairs hstart hfew]
    exact commonestShift_straight _ hne fun p hp => shiftOf_rotatedPairs hp
  refine ⟨⟨hfixed,rfl,rfl,rfl⟩,?_⟩
  simp only [Terminal.readHow,hfixed,hstart.base]
  omega

theorem Rotated.alignRead (h : Rotated current rows k) (caret : Option Nat)
    (hstart : FromKeptStart current read) (hsurvives : k<current.rows.length)
    (hfew : current.rows.length-k≤2^21) :
    AlignedRotation current rows read k (alignRead current rows read caret false) := by
  obtain ⟨hhow,hrotation⟩ := h.readHow hstart hsurvives hfew
  have hrefused : isRefused read (Terminal.readHow current rows read false)=false := by
    simp [isRefused,hstart.fromStart,hstart.shrank]
  have hkeptPairs := h.keptPairs hstart hfew
  have hkept := h.keptRows (Terminal.readHow current rows read false).fixed
  have hsound : (settled current rows read caret (rotatedPairs current.rows.length k)
      (Terminal.readHow current rows read false)).Sound current.rows rows
        (Terminal.readHow current rows read false).fixed := settled_sound hkept
  have hback := getElem?_takeBack
    (lingeringPlaces current read (Terminal.readHow current rows read false))
    ((settled current rows read caret (rotatedPairs current.rows.length k)
      (Terminal.readHow current rows read false)).new.zip rows) 0
  rw [map_fst_zip hsound.news.le] at hback
  simp only [h.settled_new hhow hrefused] at hback
  refine ⟨?_,?_,?_,hrotation,?_⟩
  · intro source hlt
    simp only [Terminal.alignRead,classify,hkeptPairs]
    exact h.settled_old hhow hrefused hlt
  · intro target hlt
    simp only [Terminal.alignRead,classify,hkeptPairs]
    obtain hsame | ⟨hnew,-⟩ := hback target
    · rw [hsame,h.new_kept hhow hlt]
    · rw [h.new_kept hhow hlt] at hnew
      cases hnew
  · intro target row hge hrow
    have hnew : (rotatedTables current rows k
        (Terminal.readHow current rows read false)).new[target]?=some .new :=
      rotatedTables_new hge (List.getElem?_eq_some_iff.mp hrow).1
    simp only [Terminal.alignRead,classify,hkeptPairs]
    obtain hsame | ⟨-,moved,hmoved⟩ := hback target
    · exact .inl (hsame.trans hnew)
    refine .inr ⟨moved,hmoved,?_⟩
    have hpair : ((settled current rows read caret (rotatedPairs current.rows.length k)
        (Terminal.readHow current rows read false)).new.zip rows)[target]?=some (.new,row) :=
      getElem?_zip_eq_some.mpr ⟨(h.settled_new hhow hrefused target).trans hnew,hrow⟩
    obtain ⟨gone,hgone,hhash⟩ := takeBack_returned hpair hmoved
    obtain ⟨lingering,hlingering,rfl⟩ := mem_map.mp hgone
    exact ⟨lingering,hlingering,hhash⟩
  · simp only [Terminal.alignRead,h.not_ambiguous,Bool.and_false]

/-- A row at or above the caret was carried, so the read is not lost. -/
theorem Rotated.keptCaret (h : Rotated current rows k) (caret : Option Nat)
    (hstart : FromKeptStart current read) (hfew : current.rows.length-k≤2^21) {source : Nat}
    (hle : k ≤ source) (hlt : source<current.rows.length)
    (hcaret : current.caretIndex.all (source≤·)=true) :
    (Terminal.alignRead current rows read caret false).keptCaret=true ∧
      (Terminal.alignRead current rows read caret false).keptText=true := by
  have haligned := h.alignRead caret hstart (by omega) hfew
  have hold := haligned.old source hlt
  have hnew := haligned.kept (source-k) (by omega)
  rw [if_neg (by omega)] at hold
  simp only [Terminal.alignRead,classify] at hold hnew ⊢
  rw [any_eq_true,any_eq_true]
  refine ⟨⟨source,mem_range.mpr hlt,?_⟩,source,mem_range.mpr hlt,?_⟩
  · rw [hcaret,h.texts source hlt,hold]
    simp only [Bool.and_self,Bool.true_and,hnew]
    simp
  · rw [h.texts source hlt,hold]
    rfl

end Rows

/-- A rotation of a full history is recovered: the rows carried are kept unmoved, those carried off
are above the read or out of the buffer, the others are new or back, and nothing is lost. -/
theorem rotation_recovered (w : Widths) (m : TerminalMemory) (read : Read) (current : Screen)
    (rows : List Row) (shape : Outcome) (k source : Nat) (hscreen : m.trim.screen=some current)
    (hmeasured : shapeOf w m.trim read=(rows,shape))
    (hsize : (shape.width,shape.height)=(current.width,current.height))
    (hshows : showsText read.screen=true) (hstart : FromKeptStart current read)
    (hblock : 0<read.above) (hheld : read.above≤rows.length) (hrotated : RotatedRead current rows k)
    (hle : k ≤ source) (hlt : source<current.rows.length)
    (hcaret : current.caretIndex.all (source≤·)=true) (hfew : current.rows.length-k≤2^21) :
    (m.read w read).2.rotation=k ∧
      (∀ target, target+k<current.rows.length →
        (m.read w read).2.old[current.skipped+(target+k)]?=some (.kept target) ∧
          (m.read w read).2.rows[target]?=some (.kept (current.skipped+(target+k)) false)) ∧
      (∀ gone<k, (m.read w read).2.old[current.skipped+gone]? =
        some (if read.atDocumentStart then .left else .above)) ∧
      (∀ (target : Nat) (row : Row), current.rows.length≤target+k → rows[target]?=some row →
        (m.read w read).2.rows[target]?=some .new ∨
          ∃ moved, (m.read w read).2.rows[target]?=some (.returned moved) ∧
            ∃ gone∈unexpired current read, gone.row.hash=row.hash) ∧
      (m.read w read).2.lost=none ∧ (m.read w read).2.wholeDocument=false := by
  have h := hrotated.rotated
  have htrusted := h.not_trusted hrotated.carried (by omega) hstart hblock hheld
  have haligned := h.alignRead shape.caret hstart (by omega) hfew
  obtain ⟨hkeptCaret,hkeptText⟩ := h.keptCaret shape.caret hstart hfew hle hlt hcaret
  have hlost : shape.lost=none ∧ shape.wholeDocument=false := by
    simp only [shapeOf,Prod.mk.injEq] at hmeasured
    rw [← hmeasured.2]
    exact ⟨rfl,rfl⟩
  obtain ⟨m',next,shape',hread,hlost',hcomplete⟩ : ∃ m' next shape', m.read w read =
      finish m' current next (alignRead current rows read shape.caret false) shape' .none ∧
        shape'.lost=none ∧ shape'.wholeDocument=false := by
    rw [TerminalMemory.read]
    simp only [hmeasured,hscreen]
    rw [if_neg (not_not.mpr hsize),if_neg (by simp [hshows]),
      if_neg (by simp [isWhole, hstart.fromStart])]
    unfold readOn
    simp only [htrusted,hkeptText,Aligned.lost,hkeptCaret,haligned.certain,Bool.not_true,
      Bool.and_false,Bool.false_and,Bool.or_self,Bool.false_eq_true,false_and,if_false,
      or_self]
    exact ⟨_,_,_,rfl,hlost⟩
  have hskip : ∀ index, current.skipped+index-current.skipped=index := by omega
  have hrows := fun target => finish_rows m' current next
    (alignRead current rows read shape.caret false) shape' .none target
  have holds := fun index => finish_old m' current next
    (alignRead current rows read shape.caret false) shape' .none
    (Nat.le_add_right current.skipped index)
  simp only [hskip] at holds
  rw [hread]
  refine ⟨haligned.rotation,fun target htarget => ⟨?_,?_⟩,fun gone hgone => ?_,
    fun target row hge hrow => ?_,hlost',hcomplete⟩
  · rw [holds,haligned.old _ htarget,if_neg (by omega),Nat.add_sub_cancel]
  · rw [hrows,haligned.kept target htarget,Option.map_some,NewRow.shifted,Nat.add_comm]
  · rw [holds,haligned.old gone (by omega),if_pos hgone]
  obtain hnew | ⟨moved,hmoved,hlingers⟩ := haligned.appended target row hge hrow
  · exact .inl (by rw [hrows,hnew]; rfl)
  · exact .inr ⟨moved,by rw [hrows,hmoved]; rfl,hlingers⟩

instance (current : Screen) (rows : List Row) (k : Nat) : Decidable (RotatedRead current rows k) :=
  decidable_of_iff _ (rotatedRead_iff ..).symm

instance (memory : Screen) (read : Read) : Decidable (FromKeptStart memory read) :=
  decidable_of_iff _ (fromKeptStart_iff ..).symm

theorem rotatedRead_recovered : ∃ current rows,
    historyMemory.trim.screen=some current ∧ RotatedRead current rows 1 ∧
      (historyMemory.read monospaced rotatedRead).2.rotation=1 ∧
      (∀ gone<1, (historyMemory.read monospaced rotatedRead).2.old[current.skipped+gone]? =
        some .above) ∧
      (historyMemory.read monospaced rotatedRead).2.wholeDocument=false := by
  have heval : historyMemory.trim.screen.any (fun current =>
      decide (((shapeOf monospaced historyMemory.trim rotatedRead).2.width,
          (shapeOf monospaced historyMemory.trim rotatedRead).2.height) =
            (current.width,current.height) ∧
        showsText rotatedRead.screen=true ∧ FromKeptStart current rotatedRead ∧
        rotatedRead.above≤(shapeOf monospaced historyMemory.trim rotatedRead).1.length ∧
        RotatedRead current (shapeOf monospaced historyMemory.trim rotatedRead).1 1 ∧
        1<current.rows.length ∧ current.rows.length≤4 ∧
        current.caretIndex.all (1≤·)=true))=true := by
    decide +kernel
  obtain ⟨current,hscreen,h⟩ := (Option.any_eq_true _ _).mp heval
  obtain ⟨hsize,hshows,hstart,hheld,hrotated,hlt,hfew,hcaret⟩ := of_decide_eq_true h
  obtain ⟨hrotation,-,hgone,-,-,hcomplete⟩ := rotation_recovered monospaced historyMemory
    rotatedRead current (shapeOf monospaced historyMemory.trim rotatedRead).1
    (shapeOf monospaced historyMemory.trim rotatedRead).2 1 1 hscreen rfl hsize hshows hstart
    (by decide) hheld hrotated le_rfl hlt hcaret (by omega)
  exact ⟨current,_,hscreen,hrotated,hrotation,hgone,hcomplete⟩

def screenMemory : TerminalMemory :=
  (TerminalMemory.new.read monospaced (readLines [("a",4),("b",4),("c",4)] 0 3 false)).1

def scrolledRead : Read := readLines [("b",4),("c",4),("d",4)] 0 3 true

/-- With no history above the screen to compare, positions are trusted and the rows carried up are
taken to have moved. -/
theorem no_history_no_rotation : ∃ current rows shape,
    screenMemory.trim.screen=some current ∧
      shapeOf monospaced screenMemory.trim scrolledRead=(rows,shape) ∧
      (shape.width,shape.height)=(current.width,current.height) ∧
      showsText scrolledRead.screen=true ∧ FromKeptStart current scrolledRead ∧
      scrolledRead.above=0 ∧ RotatedRead current rows 1 ∧ 1<current.rows.length ∧
      current.caretIndex.all (1≤·)=true ∧
      (screenMemory.read monospaced scrolledRead).2.rotation=0 ∧
      (screenMemory.read monospaced scrolledRead).2.rows[0]?=some (.kept 1 true) := by
  have heval : screenMemory.trim.screen.any (fun current =>
      decide (((shapeOf monospaced screenMemory.trim scrolledRead).2.width,
          (shapeOf monospaced screenMemory.trim scrolledRead).2.height) =
            (current.width,current.height) ∧
        showsText scrolledRead.screen=true ∧ FromKeptStart current scrolledRead ∧
        scrolledRead.above=0 ∧
        RotatedRead current (shapeOf monospaced screenMemory.trim scrolledRead).1 1 ∧
        1<current.rows.length ∧ current.caretIndex.all (1≤·)=true ∧
        (screenMemory.read monospaced scrolledRead).2.rotation=0 ∧
        (screenMemory.read monospaced scrolledRead).2.rows[0]?=some (.kept 1 true)))=true := by
    decide +kernel
  obtain ⟨current,hscreen,h⟩ := (Option.any_eq_true _ _).mp heval
  obtain ⟨hsize,hshows,hstart,hblock,hrest⟩ := of_decide_eq_true h
  exact ⟨current,_,_,hscreen,rfl,hsize,hshows,hstart,hblock,hrest⟩

end Verbatim.Terminal
