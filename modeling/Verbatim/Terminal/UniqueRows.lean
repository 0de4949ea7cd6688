import Verbatim.Terminal.Outcomes

namespace Verbatim.Terminal

open TerminalMemory List Tables Option

def Once (rows : List Row) (hash : Nat) : Prop := (rows.filter (·.hash=hash)).length=1

instance (rows : List Row) (hash : Nat) : Decidable (Once rows hash) :=
  inferInstanceAs (Decidable (_=_))

variable {rows : List Row}

theorem Once.le {hash i j : Nat} {row other : Row} (h : Once rows hash) (hi : rows[i]?=some row)
    (hrow : row.hash=hash) (hj : rows[j]?=some other) (hother : other.hash=hash) : i≤j := by
  by_contra hlt
  -- two rows apart with the text are counted twice
  have hsplit := congrArg (fun rows => (rows.filter fun row : Row => row.hash=hash).length)
    (take_append_drop i rows)
  have hlow : 0<((rows.take i).filter fun row => row.hash=hash).length := by
    refine length_pos_of_mem (mem_filter.mpr ⟨?_,decide_eq_true hother⟩)
    exact mem_of_getElem? (i := j) (by rw [getElem?_take_of_lt (by omega),hj])
  have hhigh : 0<((rows.drop i).filter fun row => row.hash=hash).length := by
    refine length_pos_of_mem (mem_filter.mpr ⟨?_,decide_eq_true hrow⟩)
    exact mem_of_getElem? (by rw [getElem?_drop,Nat.add_zero,hi])
  rw [Once] at h
  simp only [filter_append,length_append] at hsplit
  omega

theorem Once.eq {hash i j : Nat} {row other : Row} (h : Once rows hash) (hi : rows[i]?=some row)
    (hrow : row.hash=hash) (hj : rows[j]?=some other) (hother : other.hash=hash) : i=j :=
  Nat.le_antisymm (h.le hi hrow hj hother) (h.le hj hother hi hrow)

/-- An old row on the screen and a row of the read share a text no other row of either has. -/
structure SoleRow (memory : Screen) (rows : List Row) (source target : Nat) : Prop where
  onScreen : memory.screenStart ≤ source
  text : hasText memory.rows source=true
  same : sameHash memory.rows source rows target=true
  onceOld : ∀ other, sameHash memory.rows other rows target=true → other=source
  onceNew : ∀ other, sameHash memory.rows source rows other=true → other=target
  went : ∀ old new, memory.rows[source]?=some old → rows[target]?=some new →
    old.hash∈wentHashes memory rows ∧ new.hash∈wentHashes memory rows

theorem sameHash_iff {old rows : List Row} {source target : Nat} :
    sameHash old source rows target=true ↔
      ∃ o n, old[source]?=some o ∧ rows[target]?=some n ∧ o.hash=n.hash := by
  unfold sameHash
  split
  next o n ho hn => simp [ho,hn]
  next h =>
    refine ⟨nofun,?_⟩
    rintro ⟨o,n,ho,hn,-⟩
    exact (h o n ho hn).elim

theorem soleRow_of_once {memory : Screen} {source target : Nat} {old new : Row}
    (honScreen : memory.screenStart ≤ source) (hold : memory.rows[source]?=some old)
    (htext : old.isBlank=false) (honce : Once memory.rows old.hash)
    (honce' : Once rows old.hash) (hnew : rows[target]?=some new) (hsame : old.hash=new.hash) :
    SoleRow memory rows source target := by
  have hhasText : hasText memory.rows source=true := hasText_iff.mpr ⟨old,hold,htext⟩
  refine ⟨honScreen,hhasText,sameHash_iff.mpr ⟨old,new,hold,hnew,hsame⟩,?_,?_,?_⟩
  · intro other hother
    obtain ⟨o,n,ho,hn,heq⟩ := sameHash_iff.mp hother
    obtain rfl := some.inj (hnew.symm.trans hn)
    exact honce.eq ho (heq.trans hsame.symm) hold rfl
  · intro other hother
    obtain ⟨o,n,ho,hn,heq⟩ := sameHash_iff.mp hother
    obtain rfl := some.inj (hold.symm.trans ho)
    exact honce'.eq hn heq.symm hnew hsame.symm
  · intro o n ho hn
    obtain rfl := some.inj (hold.symm.trans ho)
    obtain rfl := some.inj (hnew.symm.trans hn)
    have hmem : old.hash∈wentHashes memory rows := by
      refine mem_filter.mpr ⟨?_,by simpa [Once] using ⟨honce,honce'⟩⟩
      refine mem_filterMap.mpr ⟨source,?_,by rw [hold]; rfl⟩
      exact mem_filter.mpr ⟨mem_range.mpr (hasText_lt hhasText),hhasText⟩
    exact ⟨hmem,hsame ▸ hmem⟩

section Sole

variable {memory : Screen} {rows : List Row} {read : Read} {caret : Option Nat} {trusted : Bool}
  {kept : Pairs} {how : How} {t : Tables} {source target : Nat}

theorem not_grows_of_went {old new : Row} (hold : memory.rows[source]?=some old)
    (hnew : rows[target]?=some new)
    (h : old.hash∈wentHashes memory rows ∨ new.hash∈wentHashes memory rows) :
    grows memory rows trusted source target=false := by
  simp only [grows,hold,hnew]
  obtain h | h := h <;> simp [h]

section

variable (h : SoleRow memory rows source target)

include h

theorem SoleRow.keptPair {p : Nat × Nat} (hp : p∈keptPairs memory rows read trusted)
    (heq : p.1=source ∨ p.2=target) : p=(source,target) := by
  obtain ⟨o,n,ho,hn,-⟩ := sameHash_iff.mp h.same
  obtain ⟨hwent,hwent'⟩ := h.went o n ho hn
  obtain ⟨-,-,hkeeps⟩ := (keptPairs_sound memory rows read trusted).2 p hp
  obtain hsame | ⟨-,hgrows⟩ := keepsAt_cases hkeeps
  · obtain rfl | rfl := heq
    · exact Prod.ext rfl (h.onceNew _ hsame)
    · exact Prod.ext (h.onceOld _ hsame) rfl
  obtain ⟨_,o',n',ho',hn',-⟩ := grows_grew hgrows
  have hnone : grows memory rows trusted p.1 p.2=false := by
    refine not_grows_of_went ho' hn' ?_
    obtain rfl | rfl := heq
    · exact .inl (some.inj (ho.symm.trans ho') ▸ hwent)
    · exact .inr (some.inj (hn.symm.trans hn') ▸ hwent')
  exact absurd hgrows (by simp [hnone])

omit h in
theorem keepPairs_mem (hkept : KeptRows memory.rows rows how.fixed kept)
    (hp : (source,target)∈kept) (hsame : sameHash memory.rows source rows target=true) :
    ∃ moved, (keepPairs memory rows kept how (fresh memory.rows rows)).new[target]? =
      some (.kept source moved) := by
  have hlt : target<(fresh memory.rows rows).new.length := by
    simpa [fresh] using (hkept.text _ hp).2
  refine ⟨(target : Int)≠how.placeOf source,(putAll_new_mem hkept.sorted hp hlt).trans ?_⟩
  rw [if_pos hsame]

theorem keepPairs_free (hp : ∀ p∈kept, p.1≠source ∧ p.2≠target) :
    (keepPairs memory rows kept how (fresh memory.rows rows)).isNew target=true ∧
      (keepPairs memory rows kept how (fresh memory.rows rows)).isGone source=true := by
  obtain ⟨o,n,ho,hn,-⟩ := sameHash_iff.mp h.same
  refine ⟨?_,?_⟩
  · rw [isNew_iff]
    refine (putAll_new_same fun p hmem => (hp p hmem).2).trans ?_
    exact isNew_iff.mp (fresh_isNew (List.getElem?_eq_some_iff.mp hn).1)
  · rw [isGone_iff]
    refine (putAll_old_same fun p hmem => (hp p hmem).1).trans ?_
    exact isGone_iff.mp (fresh_isGone (List.getElem?_eq_some_iff.mp ho).1)

theorem SoleRow.nearestFor
    (hnew : t.isNew target=true) : nearestFor memory rows how t source=some target := by
  have hmem : target∈(List.range rows.length).filter fun target =>
      sameHash memory.rows source rows target && t.isNew target := by
    obtain ⟨o,n,-,hn,-⟩ := sameHash_iff.mp h.same
    refine mem_filter.mpr ⟨mem_range.mpr (List.getElem?_eq_some_iff.mp hn).1,?_⟩
    rw [h.same,hnew]
    rfl
  obtain ⟨found,hfound⟩ : ∃ found, Terminal.nearestFor memory rows how t source=some found :=
    firstMin_isSome _ (ne_nil_of_mem hmem)
  rw [hfound,h.onceNew found (nearestFor_spec hfound).1]

theorem SoleRow.keepNearestAll {sources : List Nat} (hnodup : sources.Nodup)
    (hsources : ∀ other∈sources, t.isGone other=true ∧ hasText memory.rows other=true)
    (hmem : source∈sources) (hnew : t.isNew target=true) :
    ∃ moved, (sources.foldl (keepNearestOne memory rows how) t).new[target]? =
      some (.kept source moved) := by
  induction sources generalizing t with
  | nil => cases hmem
  | cons other sources ih =>
    obtain ⟨hnot,hnodup'⟩ := nodup_cons.mp hnodup
    have hrest : ∀ later∈sources,
        (keepNearestOne memory rows how t other).isGone later=true ∧
          hasText memory.rows later=true := by
      intro later hlater
      rw [isGone_keepNearestOne_of_ne (ne_of_mem_of_not_mem hlater hnot).symm]
      exact hsources later (mem_cons_of_mem _ hlater)
    obtain rfl | hne := eq_or_ne source other
    · have hput : (keepNearestOne memory rows how t source).new[target]? =
          some (.kept source ((target : Int)≠how.placeOf source)) := by
        have hlt := (List.getElem?_eq_some_iff.mp (isNew_iff.mp hnew)).1
        rw [keepNearestOne,h.nearestFor hnew]
        rw [getElem?_put_new,if_pos rfl,if_pos hlt]
      exact ⟨_,(keepNearestAll_turned hnodup' hrest).new_stays hput (by simp)⟩
    refine ih hnodup' hrest ((mem_cons.mp hmem).resolve_left hne) ?_
    unfold keepNearestOne
    split
    next found hfound =>
      rw [isNew_put_of_ne,hnew]
      rintro rfl
      exact hne (h.onceOld other (nearestFor_spec hfound).1).symm
    · exact hnew

/-- The row of a text no other row has is kept once the rows with text were. -/
theorem SoleRow.keptTables (hkept : KeptRows memory.rows rows how.fixed kept)
    (hshown : how.shown=[]) (hhistory : how.history=memory.screenStart)
    (hpairs : ∀ p∈kept, p.1=source ∨ p.2=target → p=(source,target)) :
    ∃ moved, (keptTables memory rows kept how).new[target]?=some (.kept source moved) := by
  have hnearest : ∃ moved, (keepNearest memory rows how
      (keepPairs memory rows kept how (fresh memory.rows rows))).new[target]? =
        some (.kept source moved) := by
    by_cases hp : (source,target)∈kept
    · obtain ⟨moved,hmoved⟩ := keepPairs_mem hkept hp h.same
      exact ⟨moved,keepNearest_turned.new_stays hmoved (by simp)⟩
    have hfree : ∀ p∈kept, p.1≠source ∧ p.2≠target := fun p hmem =>
      ⟨fun heq => hp (hpairs p hmem (.inl heq) ▸ hmem),
        fun heq => hp (hpairs p hmem (.inr heq) ▸ hmem)⟩
    obtain ⟨hnew,hgone⟩ := keepPairs_free h hfree
    refine h.keepNearestAll goneRows_nodup (fun _ hmem => (mem_goneRows.mp hmem).2) ?_ hnew
    exact mem_goneRows.mpr ⟨hhistory ▸ h.onScreen,hgone,h.text⟩
  obtain ⟨moved,hmoved⟩ := hnearest
  refine ⟨moved,?_⟩
  rw [Terminal.keptTables,hshown]
  exact keepGrown_turned.new_stays hmoved (by simp)

omit h in
theorem classify_kept (hkept : KeptRows memory.rows rows how.fixed kept) {moved : Bool}
    (h : (keptTables memory rows kept how).new[target]?=some (.kept source moved)) :
    (classify memory rows read caret kept how).new[target]?=some (.kept source moved) := by
  have hmatched : (matchRows memory rows read caret kept how).new[target]? =
      some (.kept source moved) := (matchRows_of_keptTables hkept).new_stays h (by simp)
  have hsettled : (settled memory rows read caret kept how).new[target]? =
      some (.kept source moved) := by
    obtain hsame | ⟨_,_,_,hwas,-⟩ :=
      getElem?_markAlone how (matchRows memory rows read caret kept how) target
    · exact hsame.trans hmatched
    · exact absurd (hwas.symm.trans hmatched) (by simp)
  have hsound : (settled memory rows read caret kept how).Sound memory.rows rows how.fixed :=
    settled_sound hkept
  have hback := getElem?_takeBack (lingeringPlaces memory read how)
    ((settled memory rows read caret kept how).new.zip rows) 0 target
  rw [map_fst_zip hsound.news.le,hsettled] at hback
  obtain hsame | ⟨hnew,-⟩ := hback
  · exact hsame
  · cases hnew

theorem SoleRow.alignRead :
    ∃ moved, (alignRead memory rows read caret trusted).new[target]?=some (.kept source moved) := by
  have hkept := keptPairs_kept memory rows read trusted
  have hkept : KeptRows memory.rows rows (readHow memory rows read trusted).fixed
      (keptPairs memory rows read trusted) := hkept
  obtain ⟨moved,hmoved⟩ := h.keptTables hkept rfl rfl fun p hp heq => h.keptPair hp heq
  exact ⟨moved,classify_kept hkept hmoved⟩

end

end Sole

/-- In every aligned read from the kept start, a row on the screen whose text is once in the memory
and once in the read is kept at the row with it. -/
theorem sole_text_kept (w : Widths) (m : TerminalMemory) (read : Read) (current : Screen)
    (rows : List Row) (shape : Outcome) (h : Aligns w m read current rows shape)
    (hpart : m.trim.isWhole read=false) (source target : Nat) (old new : Row)
    (honScreen : current.skipped+current.screenStart ≤ source) (hold : current.row source=some old)
    (htext : old.isBlank=false) (honce : Once current.rows old.hash) (honce' : Once rows old.hash)
    (hnew : rows[target]?=some new) (hsame : new.hash=old.hash) :
    (m.read w read).2.old[source]?=some (.kept target) ∧
      ∃ moved, (m.read w read).2.rows[target]?=some (.kept source moved) := by
  obtain ⟨m',shape',hread⟩ := h.read_eq
  have hmatched := finish_matched m' (remember current rows
    (m.trim.alignment current rows read shape) read shape.width shape.height shape.caret) shape'
    .none (alignment_sound m.trim current rows read shape)
  have hindex : current.rows[source-current.skipped]?=some old := by
    simp only [Screen.row,Screen.index] at hold
    split at hold
    · exact hold
    · cases hold
  have hsole : SoleRow current rows (source-current.skipped) target :=
    soleRow_of_once (by omega) hindex htext honce honce' hnew hsame.symm
  have halign : m.trim.alignment current rows read shape =
      alignRead current rows read shape.caret (isTrusted current rows read) := by
    rw [alignment,hpart]
    rfl
  obtain ⟨moved,hmoved⟩ : ∃ moved, (m.trim.alignment current rows read shape).new[target]? =
      some (.kept (source-current.skipped) moved) := halign ▸ hsole.alignRead
  rw [hread]
  have hkind : (finish m' current (remember current rows (m.trim.alignment current rows read shape)
      read shape.width shape.height shape.caret) (m.trim.alignment current rows read shape) shape'
      .none).2.rows[target]?=some (.kept source moved) := by
    rw [finish_rows,shifted_eq_kept]
    exact ⟨by omega,hmoved⟩
  exact ⟨(hmatched.kept source target (by omega)).mpr (.inl ⟨moved,hkind⟩),moved,hkind⟩

/-- The row below the wrapped line moved down with it. -/
theorem wrappedRead_keeps_below :
    (blankRowMemory.read monospaced wrappedRead).2.old[2]?=some (.kept 3) ∧
      ∃ moved, (blankRowMemory.read monospaced wrappedRead).2.rows[3]?=some (.kept 2 moved) := by
  have heval : blankRowMemory.trim.screen.any (fun current => (current.row 2).any fun old =>
      (shapeOf monospaced blankRowMemory.trim wrappedRead).1[3]?.any fun new =>
        decide (Aligns monospaced blankRowMemory wrappedRead current
            (shapeOf monospaced blankRowMemory.trim wrappedRead).1
            (shapeOf monospaced blankRowMemory.trim wrappedRead).2 ∧
          blankRowMemory.trim.isWhole wrappedRead=false ∧
          current.skipped+current.screenStart≤2 ∧ old.isBlank=false ∧
          Once current.rows old.hash ∧
          Once (shapeOf monospaced blankRowMemory.trim wrappedRead).1 old.hash ∧
          new.hash=old.hash))=true := by
    decide +kernel
  obtain ⟨current,-,h⟩ := (any_eq_true _ _).mp heval
  obtain ⟨old,hold,h⟩ := (any_eq_true _ _).mp h
  obtain ⟨new,hnew,h⟩ := (any_eq_true _ _).mp h
  obtain ⟨haligns,hpart,honScreen,htext,honce,honce',hsame⟩ := of_decide_eq_true h
  exact sole_text_kept _ _ _ current _ _ haligns hpart 2 3 old new honScreen hold htext honce
    honce' hnew hsame

end Verbatim.Terminal
