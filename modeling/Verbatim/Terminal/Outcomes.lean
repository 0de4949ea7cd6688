import Mathlib.Tactic.MkIffOfInductiveProp
import Verbatim.Terminal.Matching

namespace Verbatim.Terminal

open TerminalMemory List NewRow

/-- A read aligned with the last one: neither the first, blank, a restart, a new screen nor one
that asks for the whole document. -/
@[mk_iff]
structure Aligns (w : Widths) (m : TerminalMemory) (read : Read) (current : Screen)
    (rows : List Row) (shape : Outcome) : Prop where
  screen : m.trim.screen=some current
  measured : shapeOf w m.trim read=(rows,shape)
  size : (shape.width,shape.height)=(current.width,current.height)
  shown : (m.read w read).2.blank=false
  stayed : (m.read w read).2.switch=.none
  complete : (m.read w read).2.wholeDocument=false

section Read

variable {w : Widths} {m : TerminalMemory} {read : Read} {current : Screen} {rows : List Row}
  {shape : Outcome}

theorem readWhole_aligned {refused : Bool}
    (h : (m.readWhole current rows read shape refused).2.switch=.none) :
    ∃ m' shape', m.readWhole current rows read shape refused =
      finish m' current (remember current rows
        (alignWhole current rows read shape.caret shape.height refused).1 read shape.width
          shape.height shape.caret)
        (alignWhole current rows read shape.caret shape.height refused).1 shape' .none := by
  unfold readWhole at h ⊢
  split at h
  · cases h
  next haside =>
    rw [if_neg haside]
    exact ⟨_,_,rfl⟩

theorem readOn_aligned (h : (m.readOn current rows read shape).2.switch=.none)
    (hwhole : (m.readOn current rows read shape).2.wholeDocument=false) :
    ∃ m' shape', m.readOn current rows read shape=finish m' current (remember current rows
        (alignRead current rows read shape.caret (isTrusted current rows read)) read shape.width
          shape.height shape.caret)
        (alignRead current rows read shape.caret (isTrusted current rows read)) shape' .none := by
  unfold readOn at h hwhole ⊢
  simp only at h hwhole ⊢
  split at h
  · cases h
  next hscreens =>
    rw [if_neg hscreens] at hwhole ⊢
    split at hwhole
    · cases hwhole
    next hlost =>
      rw [if_neg hlost]
      exact ⟨_,_,rfl⟩

theorem Aligns.read_eq (h : Aligns w m read current rows shape) :
    ∃ m' shape', m.read w read =
      finish m' current (remember current rows (m.trim.alignment current rows read shape) read
        shape.width shape.height shape.caret) (m.trim.alignment current rows read shape) shape'
          .none := by
  have hread : m.read w read=if current.showsText ∧ !showsText read.screen then
      ({m.trim with askedWhole := false, askedRefused := false, askedAbove := none},
        {shape with blank := true})
      else if m.trim.isWhole read then
        readWhole {m.trim with askedWhole := false, askedRefused := false, askedAbove := none}
          current rows read shape m.trim.askedRefused
      else readOn {m.trim with askedWhole := false, askedRefused := false, askedAbove := none}
        current rows read shape := by
    rw [TerminalMemory.read]
    simp only [h.measured,h.screen]
    rw [if_neg (not_not.mpr h.size)]
  have hshown := h.shown
  have hstayed := h.stayed
  have hcomplete := h.complete
  rw [hread] at hshown hstayed hcomplete ⊢
  split at hshown
  · cases hshown
  next hblank =>
    rw [if_neg hblank] at hstayed hcomplete ⊢
    unfold alignment
    split at hstayed
    next hwhole =>
      rw [if_pos hwhole,if_pos hwhole]
      exact readWhole_aligned hstayed
    next hwhole =>
      rw [if_neg hwhole,if_neg hwhole]
      rw [if_neg hwhole] at hcomplete
      exact readOn_aligned hstayed hcomplete

theorem alignment_classify (m : TerminalMemory) (current : Screen) (rows : List Row) (read : Read)
    (shape : Outcome) : ∃ kept how, KeptRows current.rows rows how.fixed kept ∧
      (m.alignment current rows read shape).new =
        (classify current rows read shape.caret kept how).new ∧
      (m.alignment current rows read shape).old =
        (classify current rows read shape.caret kept how).old ∧
      (m.alignment current rows read shape).fixed=how.fixed := by
  unfold alignment
  split
  · exact ⟨_,_,keptWhole_kept _ _,rfl,rfl,rfl⟩
  · exact ⟨_,_,keptPairs_kept current rows read (isTrusted current rows read),rfl,rfl,rfl⟩

theorem alignment_sound (m : TerminalMemory) (current : Screen) (rows : List Row) (read : Read)
    (shape : Outcome) :
    (⟨(m.alignment current rows read shape).new,(m.alignment current rows read shape).old⟩ :
      Tables).Sound current.rows rows (m.alignment current rows read shape).fixed := by
  obtain ⟨kept,how,hkept,hnew,hold,hfixed⟩ := alignment_classify m current rows read shape
  rw [hnew,hold,hfixed]
  exact classify_sound hkept

/-- The outcome of a read is one partial matching of the old rows not trimmed with the rows of the
read, those that did not move being `fixed` further down. -/
structure Matched (current : Screen) (rows : List Row) (fixed : Int) (outcome : Outcome) :
    Prop where
  news : outcome.rows.length=rows.length
  olds : outcome.old.length=current.total
  kept : ∀ source target : Nat, current.skipped ≤ source →
    (outcome.old[source]?=some (.kept target) ↔
      (∃ moved, outcome.rows[target]?=some (.kept source moved)) ∨
        outcome.rows[target]?=some (.grown source))
  rewritten : ∀ source target : Nat, current.skipped ≤ source →
    (outcome.old[source]?=some (.rewritten target) ↔
      ∃ moved alone, outcome.rows[target]?=some (.rewritten source moved alone))
  keptRow : ∀ (source target : Nat) moved, outcome.rows[target]?=some (.kept source moved) →
    (∃ old new, current.row source=some old ∧ rows[target]?=some new ∧
      (old.hash=new.hash ∨ old.isBlank=true ∧ new.isBlank=true)) ∧
    (moved=false ↔ (target : Int)=source-current.skipped+fixed)
  grownRow : ∀ source target : Nat, outcome.rows[target]?=some (.grown source) →
    (∃ old new, current.row source=some old ∧ rows[target]?=some new ∧
      old.text <+: new.text ∧ old.text≠new.text) ∧
    (target : Int)=source-current.skipped+fixed
  rewrittenRow : ∀ (source target : Nat) moved alone,
    outcome.rows[target]?=some (.rewritten source moved alone) →
    (∃ old, current.row source=some old) ∧
    (moved=false ↔ (target : Int)=source-current.skipped+fixed)
  oneSource : ∀ source other target : Nat, current.skipped ≤ source → current.skipped≤other →
    outcome.old[source]?.bind OldRow.target?=some target →
    outcome.old[other]?.bind OldRow.target?=some target → source=other
  oneTarget : ∀ source target other : Nat,
    outcome.rows[target]?.bind source?=some source →
    outcome.rows[other]?.bind source?=some source → target=other

theorem finish_rows (m : TerminalMemory) (current next : Screen) (aligned : Aligned)
    (shape : Outcome) (switch : Switch) (target : Nat) :
    (m.finish current next aligned shape switch).2.rows[target]? =
      aligned.new[target]?.map (shifted current.skipped) := by
  simp only [finish,getElem?_map]

theorem finish_old {source : Nat} (m : TerminalMemory) (current next : Screen) (aligned : Aligned)
    (shape : Outcome) (switch : Switch) (h : current.skipped ≤ source) :
    (m.finish current next aligned shape switch).2.old[source]? =
      aligned.old[source-current.skipped]? := by
  simp only [finish,Aligned.fates]
  rw [getElem?_append_right (by simpa using h)]
  simp

variable {skipped source : Nat} {kind : Option NewRow}

theorem shifted_eq_kept {moved : Bool} : kind.map (shifted skipped)=some (.kept source moved) ↔
      skipped ≤ source ∧ kind=some (.kept (source-skipped) moved) := by
  cases kind with
  | none => simp
  | some kind =>
    cases kind <;> simp [shifted]
    grind

theorem shifted_eq_grown : kind.map (shifted skipped)=some (.grown source) ↔
      skipped ≤ source ∧ kind=some (.grown (source-skipped)) := by
  cases kind with
  | none => simp
  | some kind =>
    cases kind <;> simp [shifted]
    omega

theorem shifted_eq_rewritten {moved alone : Bool} :
    kind.map (shifted skipped)=some (.rewritten source moved alone) ↔
      skipped ≤ source ∧ kind=some (.rewritten (source-skipped) moved alone) := by
  cases kind with
  | none => simp
  | some kind =>
    cases kind <;> simp [shifted]
    grind

theorem shifted_source : (kind.map (shifted skipped)).bind source?=some source ↔
      skipped ≤ source ∧ kind.bind source?=some (source-skipped) := by
  cases kind with
  | none => simp
  | some kind =>
    cases kind <;> simp [shifted,source?]
    all_goals omega

theorem row_of_index {source : Nat} {old : Row} (h : current.skipped ≤ source)
    (hold : current.rows[source-current.skipped]?=some old) : current.row source=some old := by
  have hlt := (List.getElem?_eq_some_iff.mp hold).1
  rw [Screen.row,Screen.index,if_pos ⟨h,hlt⟩]
  exact hold

theorem finish_matched {aligned : Aligned} (m : TerminalMemory) (next : Screen) (shape : Outcome)
    (switch : Switch)
    (h : (⟨aligned.new,aligned.old⟩ : Tables).Sound current.rows rows aligned.fixed) :
    Matched current rows aligned.fixed (m.finish current next aligned shape switch).2 := by
  refine ⟨?_,?_,?_,?_,?_,?_,?_,?_,?_⟩
  · simpa [finish] using h.news
  · simpa [finish,Aligned.fates,Screen.total] using h.olds
  · intro source target hsource
    rw [finish_old _ _ _ _ _ _ hsource,finish_rows,shifted_eq_grown]
    simp only [shifted_eq_kept,hsource,true_and]
    exact h.kept_iff
  · intro source target hsource
    rw [finish_old _ _ _ _ _ _ hsource,finish_rows]
    simp only [shifted_eq_rewritten,hsource,true_and]
    exact h.rewritten_iff
  · intro source target moved hkind
    rw [finish_rows,shifted_eq_kept] at hkind
    obtain ⟨_,-,hfits⟩ := h.of_new hkind.2 rfl
    cases hfits with
    | kept _ halike hmoved =>
      obtain ⟨old,new,hold,hnew,hsame⟩ := halike
      rw [Int.ofNat_sub hkind.1] at hmoved
      exact ⟨⟨old,new,row_of_index hkind.1 hold,hnew,hsame⟩,hmoved⟩
  · intro source target hkind
    rw [finish_rows,shifted_eq_grown] at hkind
    obtain ⟨_,-,hfits⟩ := h.of_new hkind.2 rfl
    cases hfits with
    | grown hgrew hplace =>
      obtain ⟨old,new,hold,hnew,hextends⟩ := hgrew
      rw [Int.ofNat_sub hkind.1] at hplace
      simp only [extendsRow,Bool.and_eq_true,decide_eq_true_eq] at hextends
      refine ⟨⟨old,new,row_of_index hkind.1 hold,hnew,hextends.2,?_⟩,hplace⟩
      intro heq
      exact absurd hextends.1 (by simp [heq])
  · intro source target moved alone hkind
    rw [finish_rows,shifted_eq_rewritten] at hkind
    obtain ⟨fate,hfate,hfits⟩ := h.of_new hkind.2 rfl
    cases hfits with
    | rewritten _ _ hmoved =>
      rw [Int.ofNat_sub hkind.1] at hmoved
      have hlt := (List.getElem?_eq_some_iff.mp hfate).1
      rw [h.olds] at hlt
      exact ⟨⟨_,row_of_index hkind.1 (getElem?_eq_getElem hlt)⟩,hmoved⟩
  · intro source other target hsource hother htarget htarget'
    rw [finish_old _ _ _ _ _ _ hsource,h.inverse] at htarget
    rw [finish_old _ _ _ _ _ _ hother,h.inverse,htarget,Option.some_inj] at htarget'
    omega
  · intro source target other htarget hother
    rw [finish_rows,shifted_source] at htarget hother
    have htarget' := (h.inverse _ _).mpr htarget.2
    have hother' := (h.inverse _ _).mpr hother.2
    exact Option.some.inj (htarget'.symm.trans hother')

/-- Each row that came back took a lingering row of its own, not expired and with its text, and
the memory then holds the others and the rows that went and linger. -/
structure Lingers (current : Screen) (read : Read) (rows : List Row) (fixed : Int)
    (outcome : Outcome) (lingering : List Lingering) (returns : List (Nat × Lingering × Nat)) :
    Prop where
  targets : returns.map (·.1)=returnedRows outcome.rows 0
  distinct : (returns.map (·.2)).Nodup
  taken : ∀ r∈returns, r.2∈(unexpired current read).zipIdx ∧
    ∃ row, rows[r.1]?=some row ∧ row.hash=r.2.1.row.hash
  left : lingering=((unexpired current read).zipIdx.filter fun gone =>
      gone∉returns.map (·.2)).map (fun gone => gone.1.shifted (fixed-current.skipped)) ++
    outcome.old.zipIdx.filterMap fun (fate,source) =>
      if fate=.gone true then
        (current.row source).map (fun row =>
          ⟨row,read.atMs,(source : Int)-current.skipped+fixed⟩)
      else none

theorem returnedRows_shifted (kinds : List NewRow) (skipped first : Nat) :
    returnedRows (kinds.map (shifted skipped)) first=returnedRows kinds first := by
  induction kinds generalizing first with
  | nil => rfl
  | cons kind kinds ih =>
    cases kind with
    | returned moved => exact congrArg (first::·) (ih (first+1))
    | _ => exact ih (first+1)

theorem newlyLingering_eq (current : Screen) (aligned : Aligned) (now : Nat) :
    newlyLingering current aligned now =
      (aligned.fates current).zipIdx.filterMap fun (fate,source) =>
        if fate=.gone true then
          (current.row source).map (fun row =>
            ⟨row,now,(source : Int)-current.skipped+aligned.fixed⟩)
        else none := by
  -- no row trimmed lingers
  have htrimmed : ∀ pair∈((List.range current.skipped).map fun row : Nat =>
      let target : Int := (row : Int)-current.skipped+aligned.place
      if 0≤target then
        if target.toNat<aligned.new.length then OldRow.kept target.toNat else .gone false
      else if aligned.left then .left
      else .above).zipIdx, pair.1≠.gone true := by
    intro pair hpair
    obtain ⟨row,-,hrow⟩ := mem_map.mp (fst_mem_of_mem_zipIdx hpair)
    rw [← hrow]
    simp only
    repeat' split
    all_goals simp
  rw [Aligned.fates,zipIdx_append,filterMap_append,
    filterMap_eq_nil_iff.mpr fun pair hpair => if_neg (htrimmed pair hpair),
    nil_append,length_map,length_range,Nat.zero_add,newlyLingering,
    zipIdx_eq_map_add (i := current.skipped),filterMap_map]
  refine filterMap_congr fun pair _ => ?_
  obtain ⟨fate,source⟩ := pair
  have hrow : current.row (current.skipped+source)=current.rows[source]? := by
    simp only [Screen.row,Screen.index,Nat.le_add_right,Nat.add_sub_cancel_left,true_and]
    split
    · rfl
    next hlt => exact (getElem?_eq_none (by omega)).symm
  simp only [Function.comp_apply,hrow]
  have hplace : ((current.skipped+source : Nat) : Int)-current.skipped=source := by omega
  rw [hplace]

theorem map_zipIdx_fst {α β : Type} (f : α → β) (items : List α) :
    items.zipIdx.map (fun item => f item.1)=items.map f := by
  conv_rhs => rw [← zipIdx_map_fst 0 items,map_map]
  rfl

theorem remember_lingers {aligned : Aligned} {kept : Pairs} {how : How}
    {caret : Option Nat} (m : TerminalMemory) (shape : Outcome) (switch : Switch)
    (width height : Nat) (hkept : KeptRows current.rows rows how.fixed kept)
    (hnew : aligned.new=(classify current rows read caret kept how).new)
    (hfixed : aligned.fixed=how.fixed) :
    ∃ returns, Lingers current read rows aligned.fixed
      (m.finish current (remember current rows aligned read width height caret) aligned shape
        switch).2 (remember current rows aligned read width height caret).lingering returns := by
  have hsound : (settled current rows read caret kept how).Sound current.rows rows how.fixed :=
    settled_sound hkept
  obtain ⟨returns,h⟩ : ∃ returns, Returns current
      (fun gone : Lingering × Nat =>
        (gone.1.place-current.skipped+how.fixed,gone.1.row.hash))
      (fun gone => gone.1.shifted (aligned.fixed-current.skipped))
      (unexpired current read).zipIdx ((settled current rows read caret kept how).new.zip rows) 0
      returns := by
    refine takeBack_returns current ?_ (fun _ => rfl) ?_ ?_ 0
    · intro row
      simp only [Lingering.shifted,hfixed]
      omega
    · intro pair hpair moved heq
      obtain ⟨target,htarget⟩ := getElem?_of_mem (of_mem_zip hpair).1
      exact settled_noneBack hkept target moved (heq ▸ htarget)
    · refine List.Nodup.of_map Prod.snd ?_
      rw [zipIdx_map_snd]
      exact nodup_range'
  have htaken : takeBack (lingeringPlaces current read how)
      ((settled current rows read caret kept how).new.zip rows) 0=aligned.new := hnew.symm
  have hrows : ((settled current rows read caret kept how).new.zip rows).map (·.2)=rows :=
    map_snd_zip hsound.news.ge
  have hplaces := map_zipIdx_fst (fun gone : Lingering =>
    (gone.place-current.skipped+how.fixed,gone.row.hash)) (unexpired current read)
  have htargets := h.targets
  have hleft := h.left
  rw [hplaces,← lingeringPlaces,htaken] at htargets
  rw [hplaces,← lingeringPlaces,htaken,hrows,map_zipIdx_fst
    fun gone : Lingering => gone.shifted (aligned.fixed-current.skipped)] at hleft
  refine ⟨returns,?_,h.distinct,?_,?_⟩
  · simp only [finish]
    rw [returnedRows_shifted]
    exact htargets
  · intro r hr
    obtain ⟨hlive,index,pair,hindex,hpair,hhash⟩ := h.taken r hr
    obtain rfl : r.1=index := by omega
    refine ⟨hlive,pair.2,?_,hhash⟩
    rw [← hrows,getElem?_map,hpair]
    rfl
  · simp only [finish,remember]
    rw [← newlyLingering_eq,hleft]
    refine congrArg (·++newlyLingering current aligned read.atMs)
      (congrArg (List.map _) (filter_congr fun _ _ => ?_))
    exact decide_eq_decide.mpr Iff.rfl

instance : Decidable (Aligns w m read current rows shape) :=
  decidable_of_iff _ (aligns_iff ..).symm

end Read

def monospaced : Widths := ⟨List.length,fun _ => 1⟩

/-- A read of a document of lines padded to their lengths, its last lines its screen. -/
def readLines (lines : List (String × Nat)) (above screen : Nat) (fromStart : Bool) : Read :=
  let padded := lines.map (fun (line,length) =>
    line.toList++List.replicate (length-line.length) ' ')
  { text := ⟨List.intercalate ['\r','\n'] (lines.map (·.1.toList)),lines.map fun line => (1,line.2)⟩
    screen := List.intercalate ['\r','\n'] (padded.drop (lines.length-screen))
    fromStart
    shrank := false
    atDocumentStart := true
    alternate := false
    caretRowsToEnd := 1
    caretLine := padded.getLastD []
    caretColumn := 1
    atMs := 0
    above}

def blankRowMemory : TerminalMemory :=
  (TerminalMemory.new.read monospaced (readLines [("a",4),("",4),("b",4)] 0 3 false)).1

/-- A line that starts with blanks wraps where the blank row was. -/
def wrappedRead : Read := readLines [("a",4),("       x",8),("b",4)] 0 2 true

/-- Every aligned read gives one partial matching of the old rows with the rows of the read, whose
kept rows have one text or are blank, and the rows back are taken from those that linger. -/
theorem aligned_read_matches (w : Widths) (m : TerminalMemory) (read : Read) (current : Screen)
    (rows : List Row) (shape : Outcome) (h : Aligns w m read current rows shape) :
    Matched current rows (m.trim.alignment current rows read shape).fixed (m.read w read).2 ∧
      ∃ next returns, (m.read w read).1.screen=some next ∧
        Lingers current read rows (m.trim.alignment current rows read shape).fixed
          (m.read w read).2 next.lingering returns := by
  obtain ⟨m',shape',hread⟩ := h.read_eq
  obtain ⟨kept,how,hkept,hnew,-,hfixed⟩ := alignment_classify m.trim current rows read shape
  obtain ⟨returns,hlingers⟩ := remember_lingers m' shape' .none shape.width shape.height hkept hnew
    hfixed
  rw [hread]
  exact ⟨finish_matched m' _ shape' .none (alignment_sound m.trim current rows read shape),
    _,returns,rfl,hlingers⟩

/-- A blank row is kept at the blank start of a wrapped line, whose text has another hash. -/
theorem blank_kept_across_hashes : ∃ current rows shape,
    Aligns monospaced blankRowMemory wrappedRead current rows shape ∧
      (blankRowMemory.read monospaced wrappedRead).2.rows[1]?=some (.kept 1 false) ∧
      (current.row 1).map (·.hash)≠rows[1]?.map (·.hash) := by
  have heval : blankRowMemory.trim.screen.any (fun current =>
      decide (Aligns monospaced blankRowMemory wrappedRead current
          (shapeOf monospaced blankRowMemory.trim wrappedRead).1
          (shapeOf monospaced blankRowMemory.trim wrappedRead).2 ∧
        (blankRowMemory.read monospaced wrappedRead).2.rows[1]?=some (.kept 1 false) ∧
        (current.row 1).map (·.hash) ≠
          (shapeOf monospaced blankRowMemory.trim wrappedRead).1[1]?.map (·.hash)))=true := by
    decide +kernel
  obtain ⟨current,-,h⟩ := (Option.any_eq_true _ _).mp heval
  exact ⟨current,_,_,of_decide_eq_true h⟩

theorem wrappedRead_matches : ∃ current rows shape next returns,
    Aligns monospaced blankRowMemory wrappedRead current rows shape ∧
      Matched current rows (blankRowMemory.trim.alignment current rows wrappedRead shape).fixed
        (blankRowMemory.read monospaced wrappedRead).2 ∧
      (blankRowMemory.read monospaced wrappedRead).1.screen=some next ∧
      Lingers current wrappedRead rows
        (blankRowMemory.trim.alignment current rows wrappedRead shape).fixed
        (blankRowMemory.read monospaced wrappedRead).2 next.lingering returns := by
  have heval : blankRowMemory.trim.screen.any (fun current =>
      decide (Aligns monospaced blankRowMemory wrappedRead current
        (shapeOf monospaced blankRowMemory.trim wrappedRead).1
        (shapeOf monospaced blankRowMemory.trim wrappedRead).2))=true := by
    decide +kernel
  obtain ⟨current,-,h⟩ := (Option.any_eq_true _ _).mp heval
  have h := of_decide_eq_true h
  obtain ⟨hmatched,next,returns,hnext,hlingers⟩ := aligned_read_matches _ _ _ current _ _ h
  exact ⟨current,_,_,next,returns,h,hmatched,hnext,hlingers⟩

end Verbatim.Terminal
