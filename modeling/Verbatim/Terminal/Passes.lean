import Verbatim.Terminal.Tables

namespace Verbatim.Terminal

open Framework List Tables Option Nat

theorem firstMin_mem {α : Type} {key : α → Nat} {items : List α} {item : α}
    (h : firstMin key items=some item) : item∈items := by
  induction items generalizing item with
  | nil => cases h
  | cons first items ih =>
    simp only [firstMin] at h
    split at h
    · exact some.inj h ▸ mem_cons_self
    next other hother =>
      split at h
      · exact some.inj h ▸ mem_cons_of_mem _ (ih hother)
      · exact some.inj h ▸ mem_cons_self

theorem firstMin_isSome {α : Type} (key : α → Nat) {items : List α} (h : items≠[]) :
    ∃ item, firstMin key items=some item := by
  cases items with
  | nil => exact absurd rfl h
  | cons first items =>
    simp only [firstMin]
    split
    · exact ⟨_,rfl⟩
    · split <;> exact ⟨_,rfl⟩

variable {source target : Nat}

theorem sameHash_alike {old rows : List Row}
    (h : sameHash old source rows target=true) : Alike old rows source target := by
  unfold sameHash at h
  split at h
  next o n ho hn => exact ⟨o,n,ho,hn,.inl (by simpa using h)⟩
  · cases h

theorem hasText_iff {rows : List Row} {index : Nat} :
    hasText rows index=true ↔ ∃ row, rows[index]?=some row ∧ row.isBlank=false := by
  simp [hasText,Option.any_eq_true]

/-- The pairs an alignment keeps: they run down both reads, and each is of a row with text and a
row with that text or, where it was, that text grown. -/
structure KeptRows (old rows : List Row) (fixed : Int) (kept : Pairs) : Prop where
  sorted : Parallel kept
  text : ∀ p∈kept, hasText old p.1=true ∧ p.2<rows.length
  alike : ∀ p∈kept, sameHash old p.1 rows p.2=true ∨ Grew old rows p.1 p.2 ∧ (p.2 : Int)=p.1+fixed

/-- Rows gone that had text are taken for rows that were new. -/
abbrev TextTurned (memory : Screen) (rows : List Row) (how : How) : Tables → Tables → Prop :=
  Tables.Turned memory.rows rows how.fixed fun source => hasText memory.rows source=true

section Passes

variable {memory : Screen} {rows : List Row} {read : Read} {caret : Option Nat}
  {kept : Pairs} {how : How} {t : Tables}

def Tables.fresh (old rows : List Row) : Tables :=
  ⟨List.replicate rows.length .new,List.replicate old.length (.gone false)⟩

variable {old : List Row}

theorem Tables.fresh_isNew {target : Nat} (h : target<rows.length) :
    (fresh old rows).isNew target=true := by
  simp [isNew,fresh,h]

variable {source : Nat}

theorem Tables.fresh_isGone (h : source<old.length) : (fresh old rows).isGone source=true := by
  simp [isGone,fresh,h]

theorem Tables.fresh_sound (old rows : List Row) (fixed : Int) :
    (fresh old rows).Sound old rows fixed := by
  have hnew (target : Nat) : (fresh old rows).new[target]?.bind NewRow.source?=none := by
    simp only [fresh,getElem?_replicate]
    split <;> rfl
  have hold (source : Nat) : (fresh old rows).old[source]?.bind OldRow.target?=none := by
    simp only [fresh,getElem?_replicate]
    split <;> rfl
  refine ⟨by simp [fresh],by simp [fresh],?_,?_⟩
  · intro source target
    simp [hnew,hold]
  intro source target kind fate hkind hsource
  have := hnew target
  rw [hkind,bind_some,hsource] at this
  cases this

theorem hasText_lt {index : Nat} (h : hasText old index=true) : index<old.length := by
  obtain ⟨row,hrow,-⟩ := hasText_iff.mp h
  exact (List.getElem?_eq_some_iff.mp hrow).1

theorem placed_iff :
    decide ((target : Int)≠how.placeOf source)=false ↔ (target : Int)=source+how.fixed := by
  rw [decide_eq_false_iff_not,not_not,How.placeOf]

theorem keepPairs_turned (hkept : KeptRows memory.rows rows how.fixed kept) :
    TextTurned memory rows how
      (fresh memory.rows rows)
      (keepPairs memory rows kept how (fresh memory.rows rows)) := by
  refine Tables.Turned.putAll hkept.sorted ?_ ?_
  · intro p hp
    obtain ⟨htext,hlt⟩ := hkept.text p hp
    exact ⟨fresh_isNew hlt,fresh_isGone (hasText_lt htext)⟩
  · intro p hp
    refine ⟨(hkept.text p hp).1,?_⟩
    split
    next hsame => exact .kept _ (sameHash_alike hsame) placed_iff
    next hsame =>
      obtain h | ⟨hgrew,hplace⟩ := hkept.alike p hp
      · exact absurd h hsame
      · exact .grown hgrew hplace

variable {may : Nat → Prop} {fixed : Int}

theorem markShown_turned (targets : List Nat) :
    Tables.Turned old rows fixed may t (targets.foldl (fun t target => t.markShown target) t) :=
  Tables.Turned.foldl fun target _ t => .single (.shown t target)

def nearestFor (memory : Screen) (rows : List Row) (how : How) (t : Tables) (source : Nat) :
    Option Nat :=
  firstMin (fun target : Nat => ((target : Int)-how.placeOf source).natAbs)
    ((List.range rows.length).filter fun target =>
      sameHash memory.rows source rows target && t.isNew target)

def keepNearestOne (memory : Screen) (rows : List Row) (how : How) (t : Tables) (source : Nat) :
    Tables :=
  match nearestFor memory rows how t source with
  | some target => t.put source target (.kept source ((target : Int)≠how.placeOf source))
      (.kept target)
  | none => t

theorem nearestFor_spec (h : nearestFor memory rows how t source=some target) :
    sameHash memory.rows source rows target=true ∧ t.isNew target=true := by
  have := mem_filter.mp (firstMin_mem h)
  simpa using this.2

theorem keepNearestOne_turned (hmay : may source) (hgone : t.isGone source=true) :
    Tables.Turned memory.rows rows how.fixed may t (keepNearestOne memory rows how t source) := by
  unfold keepNearestOne
  split
  next target h =>
    obtain ⟨hsame,hnew⟩ := nearestFor_spec h
    exact .put hnew hgone hmay (.kept _ (sameHash_alike hsame) placed_iff)
  · exact .refl

theorem isGone_keepNearestOne_of_ne {source other : Nat} (hne : source≠other) :
    (keepNearestOne memory rows how t source).isGone other=t.isGone other := by
  unfold keepNearestOne
  split
  · exact isGone_put_of_ne hne
  · rfl

theorem keepNearestAll_turned {sources : List Nat} (hnodup : sources.Nodup)
    (hsources : ∀ source∈sources, t.isGone source=true ∧ hasText memory.rows source=true) :
    TextTurned memory rows how t
      (sources.foldl (keepNearestOne memory rows how) t) := by
  induction sources generalizing t with
  | nil => exact .refl
  | cons source sources ih =>
    obtain ⟨hnot,hnodup⟩ := nodup_cons.mp hnodup
    obtain ⟨hgone,htext⟩ := hsources source (by simp)
    refine (keepNearestOne_turned htext hgone).trans (ih hnodup fun other hother => ?_)
    rw [isGone_keepNearestOne_of_ne (ne_of_mem_of_not_mem hother hnot).symm]
    exact hsources other (mem_cons_of_mem _ hother)

def goneRows (memory : Screen) (how : How) (t : Tables) : List Nat :=
  (List.range' how.history (memory.rows.length-how.history)).filter fun source =>
    t.isGone source && hasText memory.rows source

theorem mem_goneRows : source∈goneRows memory how t ↔
    how.history ≤ source ∧ t.isGone source=true ∧ hasText memory.rows source=true := by
  rw [goneRows,mem_filter,mem_range'_1,Bool.and_eq_true]
  refine ⟨fun h => ⟨h.1.1,h.2⟩,fun h => ⟨⟨h.1,?_⟩,h.2⟩⟩
  have := hasText_lt h.2.2
  omega

theorem goneRows_nodup : (goneRows memory how t).Nodup := by
  have hnodup : (List.range' how.history (memory.rows.length-how.history)).Nodup := nodup_range'
  exact hnodup.filter _

theorem keepNearest_turned :
    TextTurned memory rows how t
      (keepNearest memory rows how t) :=
  keepNearestAll_turned goneRows_nodup fun _ hsource => (mem_goneRows.mp hsource).2

theorem keepGrown_turned :
    TextTurned memory rows how t
      (keepGrown memory rows kept how t) := by
  unfold keepGrown
  split
  · refine Tables.Turned.foldl (fun source _ t => ?_)
    simp only
    split
    next h =>
      obtain ⟨hplace,htext,hgone,hnew,hgrew⟩ := h
      have hgrew : Grew memory.rows rows source (how.placeOf source).toNat := by
        cases ho : memory.rows[source]? with
        | none => simp [ho] at hgrew
        | some o =>
          cases hn : rows[(how.placeOf source).toNat]? with
          | none => simp [ho,hn] at hgrew
          | some n => exact ⟨o,n,ho,hn,by simpa [ho,hn] using hgrew⟩
      exact .put hnew hgone htext (.grown hgrew (Int.toNat_of_nonneg hplace))
    · exact .refl
  · exact .refl

theorem keepBlank_turned {shiftAbove below : Option Int} (hlt : source < memory.rows.length)
    (hblank : hasText memory.rows source=false) (hgone : t.isGone source=true) :
    Tables.Turned memory.rows rows how.fixed (fun other => other=source) t
      (keepBlank rows how t source shiftAbove below) := by
  unfold keepBlank
  simp only
  split
  next h =>
    obtain ⟨hplace,hblank',hnew⟩ := h
    refine Tables.Turned.put hnew hgone (by rfl) (.kept _ ?_ ?_)
    · obtain ⟨n,hn,hn'⟩ := (any_eq_true _ _).mp hblank'
      refine ⟨memory.rows[source],n,getElem?_eq_getElem hlt,hn,.inr ⟨?_,hn'⟩⟩
      simpa [hasText,hlt] using hblank
    · rw [Int.toNat_of_nonneg hplace]
      simp
  · exact .refl

theorem keepBlanks_turned
    (hgone : ∀ source < memory.rows.length,
      hasText memory.rows source=false → t.isGone source=true) :
    Tables.Turned memory.rows rows how.fixed (fun _ => True) t
      (keepBlanks memory rows kept how t) := by
  -- the blank rows not yet reached are gone still
  refine (foldl_range_invariant (fun j (s : Tables × Pairs × Option Int) =>
    Tables.Turned memory.rows rows how.fixed (fun source => source<j) t s.1)
    memory.rows.length ?_ ?_).mono fun _ _ => trivial
  · exact .refl
  intro source hlt s hs
  have hs' : Tables.Turned memory.rows rows how.fixed (fun other => other<source+1) t s.1 :=
    hs.mono fun _ h => lt_succ_of_lt h
  simp only
  split
  · exact hs'
  next hblank =>
    have hblank : hasText memory.rows source=false := by simpa using hblank
    have hgone : s.1.isGone source=true := by
      rw [isGone_iff,hs.old_same (lt_irrefl source),← isGone_iff]
      exact hgone source hlt hblank
    exact hs'.trans ((keepBlank_turned hlt hblank hgone).mono
      fun other hother => hother ▸ lt_succ_self source)

theorem gapRows_sorted (rows : List Row) (start stop : Nat) (isLeft : Nat → Bool) :
    Rising ((gapRows rows start stop isLeft).map (·.1)) := by
  rw [gapRows,Rising,pairwise_map,pairwise_filterMap]
  have hsorted : Rising (List.range' start (stop-start)) := pairwise_lt_range'
  refine (hsorted.filter isLeft).imp fun {a b} hlt x hx y hy => ?_
  obtain ⟨_,-,rfl⟩ := map_eq_some_iff.mp hx
  obtain ⟨_,-,rfl⟩ := map_eq_some_iff.mp hy
  exact hlt

theorem isLeft_of_mem_gapRows {start stop index : Nat} {isLeft : Nat → Bool}
    (h : index∈(gapRows rows start stop isLeft).map (·.1)) : isLeft index=true := by
  obtain ⟨_,hpair,rfl⟩ := mem_map.mp h
  obtain ⟨_,hindex,hrow⟩ := mem_filterMap.mp hpair
  obtain ⟨_,-,rfl⟩ := map_eq_some_iff.mp hrow
  exact (mem_filter.mp hindex).2

theorem pairGap_turned (above below : Option (Nat × Nat)) :
    TextTurned memory rows how t
      (pairGap memory rows how t above below) := by
  have hpaired := fun oldStart oldStop newStart newStop isLeft isLeft' prefer =>
    pairBy_sound id prefer (gapRows_sorted memory.rows oldStart oldStop isLeft)
      (gapRows_sorted rows newStart newStop isLeft')
  refine Tables.Turned.putAll (hpaired _ _ _ _ _ _ _).1 ?_ ?_
  · intro p hp
    obtain ⟨hold,hnew⟩ := (hpaired _ _ _ _ _ _ _).2 p hp
    have hold := isLeft_of_mem_gapRows hold
    have hnew := isLeft_of_mem_gapRows hnew
    simp only [decide_eq_true_eq] at hold hnew
    exact ⟨hnew.1,hold.2.2.1⟩
  · intro p hp
    have hold := isLeft_of_mem_gapRows ((hpaired _ _ _ _ _ _ _).2 p hp).1
    simp only [decide_eq_true_eq] at hold
    exact ⟨hold.2.2.2,.rewritten _ _ placed_iff⟩

theorem pairRewritten_turned :
    TextTurned memory rows how t
      (pairRewritten memory rows kept how t) := by
  unfold pairRewritten
  split
  · exact .refl
  · exact Tables.Turned.foldl fun gap _ t => pairGap_turned gap.1 gap.2

theorem rewriteCaret_turned :
    TextTurned memory rows how t
      (rewriteCaret memory rows read caret how t) := by
  unfold rewriteCaret
  split
  · simp only
    split
    next h =>
      obtain ⟨-,hplace,htext,hgone,hnew,-⟩ := h
      exact .put hnew hgone htext (.rewritten _ _ (by simpa [How.placeOf] using hplace))
    · exact .refl
  · exact .refl

theorem showTop_turned : Tables.Turned old rows fixed may t (showTop rows read kept how t) :=
  markShown_turned _

def keptTables (memory : Screen) (rows : List Row) (kept : Pairs) (how : How) : Tables :=
  keepGrown memory rows kept how (keepNearest memory rows how
    (how.shown.foldl (fun t target => t.markShown target)
      (keepPairs memory rows kept how (fresh memory.rows rows))))

variable (lingering : List (Int × Nat)) (pairs : List (NewRow × Row))

theorem getElem?_markAlone (how : How) (t : Tables) (target : Nat) :
    (markAlone how t).new[target]?=t.new[target]? ∨ ∃ source alone alone',
      t.new[target]?=some (.rewritten source true alone) ∧
        (markAlone how t).new[target]?=some (.rewritten source true alone') := by
  simp only [markAlone,getElem?_map,getElem?_zipIdx]
  cases h : t.new[target]? with
  | none => exact .inl rfl
  | some kind =>
    simp only [map_some]
    split
    · exact .inr ⟨_,_,_,rfl,rfl⟩
    · exact .inl rfl

theorem markAlone_sound (h : t.Sound old rows fixed) : (markAlone how t).Sound old rows fixed := by
  have hsource (target : Nat) : (markAlone how t).new[target]?.bind NewRow.source? =
      t.new[target]?.bind NewRow.source? := by
    obtain heq | ⟨source,alone,alone',hwas,his⟩ := getElem?_markAlone how t target
    · rw [heq]
    · rw [hwas,his]
      rfl
  refine ⟨by simpa [markAlone] using h.news,h.olds,?_,?_⟩
  · intro source target
    rw [hsource]
    exact h.inverse source target
  · intro source target kind fate hkind hfrom hfate
    obtain heq | ⟨source',alone,alone',hwas,his⟩ := getElem?_markAlone how t target
    · exact h.fits source target kind fate (heq ▸ hkind) hfrom hfate
    obtain rfl := some.inj (hkind.symm.trans his)
    obtain rfl := some.inj hfrom
    cases h.fits source' target _ fate hwas rfl hfate with
    | rewritten _ _ hmoved => exact .rewritten _ _ hmoved

theorem getElem?_linger (hlen : t.old.length=memory.rows.length) (source : Nat) :
    (linger memory read caret how t).old[source]?=t.old[source]? ∨
      (linger memory read caret how t).old[source]?.bind OldRow.target?=none ∧
        t.old[source]?.bind OldRow.target?=none := by
  simp only [linger,getElem?_map,getElem?_zipIdx,zip_eq_zipWith,getElem?_zipWith]
  cases h : t.old[source]? with
  | none => exact .inl rfl
  | some fate =>
    have hlt : source < memory.rows.length := hlen ▸ (List.getElem?_eq_some_iff.mp h).1
    rw [getElem?_eq_getElem hlt]
    simp only [map_some]
    by_cases hgone : fate=.gone false
    · subst hgone
      refine .inr ⟨?_,rfl⟩
      repeat' split
      all_goals rfl
    · exact .inl (by rw [if_pos hgone])

theorem linger_sound (h : t.Sound memory.rows rows how.fixed) :
    (linger memory read caret how t).Sound memory.rows rows how.fixed :=
  h.remark rfl (by simp [linger,h.olds]) (fun _ => .inl rfl) (getElem?_linger h.olds)

theorem getElem?_takeBack (target index : Nat) :
    (takeBack lingering pairs target)[index]?=(pairs.map (·.1))[index]? ∨
      (pairs.map (·.1))[index]?=some .new ∧
        ∃ moved, (takeBack lingering pairs target)[index]?=some (.returned moved) := by
  induction pairs generalizing lingering target index with
  | nil => exact .inl rfl
  | cons pair pairs ih =>
    obtain ⟨kind,row⟩ := pair
    simp only [takeBack]
    split
    · cases index with
      | zero => exact .inl rfl
      | succ index => exact ih lingering (target+1) index
    next hkind =>
      have hkind : kind=.new := by
        by_contra hne
        exact hkind (.inl hne)
      split
      next gone _ =>
        cases index with
        | zero => exact .inr ⟨by rw [hkind]; rfl,_,rfl⟩
        | succ index => exact ih (lingering.eraseIdx gone) (target+1) index
      · cases index with
        | zero => exact .inl rfl
        | succ index => exact ih lingering (target+1) index

theorem length_takeBack (target : Nat) : (takeBack lingering pairs target).length=pairs.length := by
  induction pairs generalizing lingering target with
  | nil => rfl
  | cons pair pairs ih =>
    simp only [takeBack]
    split
    · simp [ih]
    · split <;> simp [ih]

def NoneBack (t : Tables) : Prop :=
  ∀ (target : Nat) (moved : Bool), t.new[target]?≠some (.returned moved)

theorem Tables.Turned.noneBack {t' : Tables}
    (h : Tables.Turned old rows fixed may t t') (hback : NoneBack t) : NoneBack t' := by
  induction h with
  | refl => exact hback
  | tail _ hstep ih =>
    intro target moved heq
    cases hstep with
    | put hnew hgone hmay hfits =>
      rw [getElem?_put_new] at heq
      split at heq
      · split at heq
        · cases heq
          cases hfits
        · cases heq
      · exact ih target moved heq
    | shown other =>
      obtain hsame | ⟨-,hshown⟩ := getElem?_markShown other target
      · exact ih target moved (hsame ▸ heq)
      · rw [hshown] at heq
        cases heq

variable (hkept : KeptRows memory.rows rows how.fixed kept)

include hkept

theorem keptTables_turned :
    TextTurned memory rows how
      (fresh memory.rows rows) (keptTables memory rows kept how) :=
  (((keepPairs_turned hkept).trans (markShown_turned how.shown)).trans keepNearest_turned).trans
    keepGrown_turned

theorem matchRows_of_keptTables :
    Tables.Turned memory.rows rows how.fixed (fun _ => True) (keptTables memory rows kept how)
      (matchRows memory rows read caret kept how) := by
  have hblanks : ∀ source < memory.rows.length, hasText memory.rows source=false →
      (keptTables memory rows kept how).isGone source=true := by
    intro source hlt hblank
    rw [isGone_iff,(keptTables_turned hkept).old_same (by simp [hblank]),← isGone_iff]
    exact fresh_isGone hlt
  exact (((keepBlanks_turned hblanks).trans showTop_turned).trans
    (pairRewritten_turned.mono fun _ _ => trivial)).trans
    (rewriteCaret_turned.mono fun _ _ => trivial)

theorem matchRows_sound :
    (matchRows memory rows read caret kept how).Sound memory.rows rows how.fixed :=
  (matchRows_of_keptTables hkept).sound ((keptTables_turned hkept).sound (fresh_sound _ _ _))

theorem settled_noneBack : NoneBack (settled memory rows read caret kept how) := by
  have hfresh : NoneBack (fresh memory.rows rows) := by
    intro target moved heq
    simp only [fresh,getElem?_replicate] at heq
    split at heq <;> cases heq
  have hmatched : NoneBack (matchRows memory rows read caret kept how) :=
    (matchRows_of_keptTables hkept).noneBack ((keptTables_turned hkept).noneBack hfresh)
  intro target moved heq
  obtain hsame | ⟨_,_,_,-,his⟩ :=
    getElem?_markAlone how (matchRows memory rows read caret kept how) target
  · exact hmatched target moved (hsame ▸ heq)
  · exact absurd (his.symm.trans heq) (by simp)

theorem settled_sound :
    (settled memory rows read caret kept how).Sound memory.rows rows how.fixed :=
  linger_sound (markAlone_sound (matchRows_sound hkept))

theorem classify_sound : (⟨(classify memory rows read caret kept how).new,
      (classify memory rows read caret kept how).old⟩ : Tables).Sound memory.rows rows
        how.fixed := by
  have hsettled : (settled memory rows read caret kept how).Sound memory.rows rows how.fixed :=
    settled_sound hkept
  have hfst : ((settled memory rows read caret kept how).new.zip rows).map (·.1) =
      (settled memory rows read caret kept how).new :=
    map_fst_zip hsettled.news.le
  refine hsettled.remark ?_ rfl (fun target => ?_) fun _ => .inl rfl
  · rw [classify,length_takeBack,length_zip,hsettled.news,min_self]
  have := getElem?_takeBack (lingeringPlaces memory read how)
    ((settled memory rows read caret kept how).new.zip rows) 0 target
  rw [hfst] at this
  obtain h | ⟨h,moved,h'⟩ := this
  · exact .inl h
  · exact .inr ⟨by rw [classify,h']; rfl,by rw [h]; rfl⟩

end Passes

end Verbatim.Terminal
