import Verbatim.Terminal.Outcomes

namespace Verbatim.Terminal

open TerminalMemory List Option

namespace TerminalMemory

def setReview (m : TerminalMemory) (row column : Nat) : TerminalMemory :=
  {m with screen := m.screen.map (fun screen => match screen.row row with
    | some found => {screen with review := some ⟨row,column,found.lineHash⟩}
    | none => screen)}

end TerminalMemory

/-- An anchor put on row `target`: its column and line are the row's inside the read, and its own
outside. -/
def Anchor.movedTo (anchor : Anchor) (rows : List Row) (target : Int) : Anchor :=
  if 0≤target then
    (anchorAt rows target.toNat anchor.column).getD {anchor with row := target}
  else {anchor with row := target}

/-- Where a row of the last read, or of the history above it, is after a read whose start was
accepted: those that did not move went `fixed` further down, and a place in the history went as far
as the read's start says. -/
inductive Survives (current : Screen) (read : Read) (fixed : Int) (outcome : Outcome) :
    Int → Int → Prop
  | kept {row target : Nat} : outcome.old[row]?=some (.kept target) →
      Survives current read fixed outcome row target
  | rewritten {row target : Nat} : outcome.old[row]?=some (.rewritten target) →
      Survives current read fixed outcome row target
  | above {row : Nat} : outcome.old[row]?=some .above →
      Survives current read fixed outcome row (row-current.skipped+baseShift current read)
  | written {row target : Nat} {lingering : Bool} :
      outcome.old[row]?=some (.gone lingering) →
      (current.row row).any (·.isBlank)=true → outcome.rows[target]?=some .new →
      (target : Int)=row-current.skipped+fixed →
      Survives current read fixed outcome row target
  | history {row : Int} : row<0 → current.atDocumentStart=false →
      Survives current read fixed outcome row
        (if read.atDocumentStart then max (row-current.skipped+baseShift current read) 0
          else row-current.skipped+baseShift current read)

/-- What a read makes of an anchor on a row of the last read. -/
structure Followed (current : Screen) (read : Read) (rows : List Row) (fixed : Int)
    (outcome : Outcome) (anchor : Anchor) (after : Option Anchor) : Prop where
  kept : ∀ target : Nat, outcome.old[anchor.row.toNat]?=some (.kept target) ∨
    outcome.old[anchor.row.toNat]?=some (.rewritten target) →
    after=some (anchor.movedTo rows target)
  above : outcome.old[anchor.row.toNat]?=some .above →
    after=some (anchor.movedTo rows (anchor.row-current.skipped+baseShift current read))
  nearest : ∀ row≤anchor.row, ∀ target : Int, Survives current read fixed outcome row target →
    (∀ other≤anchor.row, row<other → ∀ went, ¬ Survives current read fixed outcome other went) →
    after=some (anchor.movedTo rows target)
  atCaret : (∀ row≤anchor.row, ∀ target, ¬ Survives current read fixed outcome row target) →
    after=(caretRow rows.length read.caretRowsToEnd).bind (fun row =>
      anchorAt rows row read.caretColumn)
  present : (caretRow rows.length read.caretRowsToEnd).isSome=true → after.isSome=true
  inside : ∀ found, after=some found → ∀ (index : Nat) (row : Row), found.row=index →
    rows[index]?=some row → found.column≤row.text.length ∧ found.lineHash=row.lineHash

section Carried

variable {memory : Screen} {rows : List Row} {lingering : List Lingering}

theorem getElem?_carryRows (memory : Screen) (pairs : List (NewRow × Row)) (target : Nat)
    (lingering : List Lingering) (index : Nat) :
    ∃ redrawn, (carryRows memory pairs target lingering).1[index]? =
      pairs[index]?.map fun pair => {pair.2 with redrawn := redrawn} := by
  induction pairs generalizing target lingering index with
  | nil => exact ⟨false,rfl⟩
  | cons pair pairs ih =>
    obtain ⟨kind,row⟩ := pair
    cases index with
    | zero => cases kind <;> exact ⟨_,rfl⟩
    | succ index => exact ih (target+1) _ index

theorem anchorAt_carryRows {kinds : List NewRow} (hlen : kinds.length=rows.length)
    (target row column : Nat) :
    anchorAt (carryRows memory (kinds.zip rows) target lingering).1 row column =
      anchorAt rows row column := by
  obtain ⟨redrawn,h⟩ := getElem?_carryRows memory (kinds.zip rows) target lingering row
  have hrow : (kinds.zip rows)[row]?.map (·.2)=rows[row]? := by
    rw [← getElem?_map,map_snd_zip hlen.ge]
  rw [anchorAt,anchorAt,h,← hrow,Option.map_map,Option.map_map]
  rfl

theorem anchorAt_eq_some {row column : Nat} {found : Anchor}
    (h : anchorAt rows row column=some found) :
    found.row=row ∧ ∀ text, rows[row]?=some text →
      found.column≤text.text.length ∧ found.lineHash=text.lineHash := by
  obtain ⟨text,htext,rfl⟩ := map_eq_some_iff.mp h
  refine ⟨rfl,fun other hother => ?_⟩
  obtain rfl := some.inj (htext.symm.trans hother)
  exact ⟨min_le_right _ _,rfl⟩

theorem Anchor.movedTo_row (anchor : Anchor) (rows : List Row) (target : Int) :
    (anchor.movedTo rows target).row=target := by
  unfold movedTo
  split
  next hle =>
    cases h : anchorAt rows target.toNat anchor.column with
    | none => rfl
    | some found =>
      rw [getD_some,(anchorAt_eq_some h).1]
      exact Int.toNat_of_nonneg hle
  · rfl

theorem Anchor.movedTo_inside (anchor : Anchor) {target : Int} {index : Nat} {row : Row}
    (htarget : target=index) (hrow : rows[index]?=some row) :
    (anchor.movedTo rows target).column≤row.text.length ∧
      (anchor.movedTo rows target).lineHash=row.lineHash := by
  subst htarget
  have hat : anchorAt rows index anchor.column =
      some ⟨index,min anchor.column row.text.length,row.lineHash⟩ := by
    rw [anchorAt,hrow]
    rfl
  rw [movedTo,if_pos (Int.natCast_nonneg index),Int.toNat_natCast,hat,getD_some]
  exact ⟨min_le_right _ _,rfl⟩

end Carried

section Above

variable {old rows : List Row} {fixed : Int} {may : Nat → Prop} {t t' : Tables}

def NoneAbove (t : Tables) : Prop := ∀ source : Nat, t.old[source]?≠some .above

theorem Tables.Turned.noneAbove (h : Tables.Turned old rows fixed may t t')
    (habove : NoneAbove t) : NoneAbove t' := by
  induction h with
  | refl => exact habove
  | tail _ hstep ih =>
    intro source heq
    cases hstep with
    | put hnew hgone hmay hfits =>
      rw [Tables.getElem?_put_old] at heq
      split at heq
      · split at heq
        · cases heq
          cases hfits
        · cases heq
      · exact ih source heq
    | shown target =>
      refine ih source ?_
      rw [← heq]
      unfold Tables.markShown
      split <;> rfl

variable {memory : Screen} {read : Read} {caret : Option Nat} {kept : Pairs} {how : How}

theorem matchRows_noneAbove (hkept : KeptRows memory.rows rows how.fixed kept) :
    NoneAbove (matchRows memory rows read caret kept how) := by
  refine (matchRows_of_keptTables hkept).noneAbove ((keptTables_turned hkept).noneAbove ?_)
  intro source heq
  simp only [Tables.fresh,getElem?_replicate] at heq
  split at heq <;> cases heq

theorem classify_above {source : Nat} (hkept : KeptRows memory.rows rows how.fixed kept)
    (h : (classify memory rows read caret kept how).old[source]?=some .above) :
    read.atDocumentStart=false := by
  have hnone : (markAlone how (matchRows memory rows read caret kept how)).old[source]? ≠
      some .above := matchRows_noneAbove hkept source
  simp only [classify,settled,linger,getElem?_map,getElem?_zipIdx] at h
  obtain ⟨⟨⟨fate,row⟩,index⟩,hpair,hfate⟩ := map_eq_some_iff.mp h
  obtain ⟨⟨fate',row'⟩,hzip,heq⟩ := map_eq_some_iff.mp hpair
  obtain ⟨⟨rfl,rfl⟩,rfl⟩ := Prod.ext_iff.mp heq |>.imp_left Prod.ext_iff.mp
  have hne : fate'≠.above := fun heq =>
    hnone (heq ▸ (getElem?_zip_eq_some.mp hzip).1)
  split at hfate
  · exact absurd hfate hne
  split at hfate
  · split at hfate
    · cases hfate
    next hstart => simpa using hstart
  · repeat' split at hfate
    all_goals first | exact absurd hfate hne | cases hfate

end Above

section Follow

variable {read : Read} {current : Screen} {rows : List Row}
  {fates : List OldRow} {aligned : Aligned} {outcome : Outcome}

/-- A row survives as the source says, when the read's start was accepted. -/
theorem surviving_iff (hrefused : aligned.refused=false)
    (hplace : aligned.place=baseShift current read) (hold : outcome.old=aligned.fates current)
    (hnew : ∀ target : Nat, outcome.rows[target]?=some .new ↔ aligned.new[target]?=some .new)
    (habove : ∀ row : Nat, outcome.old[row]?=some .above → read.atDocumentStart=false)
    (row target : Int) :
    surviving current aligned (aligned.fates current) read row=some target ↔
      Survives current read aligned.fixed outcome row target := by
  have hmoved : row+(aligned.place-current.skipped)=row-current.skipped+baseShift current read := by
    omega
  have hfixed : row+(aligned.fixed-current.skipped)=row-current.skipped+aligned.fixed := by omega
  rw [surviving,if_neg (by simp [hrefused]),← hold]
  simp only
  obtain hneg | hle := lt_or_ge row 0
  · rw [if_pos hneg,hmoved]
    constructor
    · intro h
      split at h
      · cases h
      next hstart =>
        cases h
        exact .history hneg (by simpa using hstart)
    · intro h
      cases h with
      | history _ hstart => rw [hstart]; rfl
      | _ => omega
  obtain ⟨row,rfl⟩ := Int.eq_ofNat_of_zero_le hle
  rw [if_neg (by omega),Int.toNat_natCast,hmoved,hfixed]
  constructor
  · intro h
    split at h
    · cases h
    next hfate => exact some.inj h ▸ .kept hfate
    next hfate => exact some.inj h ▸ .rewritten hfate
    next hfate =>
      rw [habove row hfate] at h
      exact some.inj h ▸ .above hfate
    next hfate =>
      split at h
      next hwritten =>
        obtain ⟨hblank,hnonneg,hkind⟩ := hwritten
        cases h
        have hback := Int.toNat_of_nonneg hnonneg
        rw [← hback]
        exact .written hfate hblank ((hnew _).mpr hkind) hback
      · cases h
    · cases h
  · intro h
    generalize hsource : (row : Int)=source at h
    cases h with
    | kept hfate | rewritten hfate =>
      obtain rfl := Int.ofNat.inj hsource
      rw [hfate]
    | above hfate =>
      obtain rfl := Int.ofNat.inj hsource
      rw [hfate,habove row hfate]
      rfl
    | written hfate hblank hkind hat =>
      obtain rfl := Int.ofNat.inj hsource
      rw [hfate]
      simp only
      rw [← hat,if_pos ⟨hblank,Int.natCast_nonneg _,by simpa using (hnew _).mp hkind⟩]
    | history hneg => omega

theorem nearestSurviving_eq_some {fuel : Nat} {anchor row target : Int} (hlow : -1≤row)
    (hle : row≤anchor) (hfuel : anchor-row≤fuel)
    (hrow : surviving current aligned fates read row=some target)
    (hnone : ∀ other≤anchor, row<other → surviving current aligned fates read other=none) :
    nearestSurviving current aligned fates read fuel anchor=some target := by
  induction fuel generalizing anchor with
  | zero =>
    obtain rfl : row=anchor := by omega
    rw [nearestSurviving,hrow]
  | succ fuel ih =>
    obtain rfl | hlt := hle.eq_or_lt
    · rw [nearestSurviving,hrow]
    rw [nearestSurviving,hnone anchor le_rfl hlt]
    rw [if_neg (by omega)]
    exact ih (by omega) (by omega) fun other hother => hnone other (by omega)

theorem nearestSurviving_eq_none {anchor : Int} (fuel : Nat)
    (hnone : ∀ row≤anchor, surviving current aligned fates read row=none) :
    nearestSurviving current aligned fates read fuel anchor=none := by
  induction fuel generalizing anchor with
  | zero => simp [nearestSurviving,hnone anchor le_rfl]
  | succ fuel ih =>
    rw [nearestSurviving,hnone anchor le_rfl]
    simp only
    split
    · rfl
    · exact ih fun row hle => hnone row (by omega)

theorem mapAnchor_eq {next : Screen} (hrefused : aligned.refused=false)
    (hrows : ∀ row column, anchorAt next.rows row column=anchorAt rows row column)
    (anchor : Anchor) :
    mapAnchor anchor current aligned fates next read =
      ((nearestSurviving current aligned fates read (anchor.row.toNat+1) anchor.row).map
        (anchor.movedTo rows)).or
        (next.caret.bind fun row => anchorAt rows row read.caretColumn) := by
  simp only [mapAnchor,hrefused,Bool.false_eq_true,false_and,if_false,hrows]
  split
  next target htarget =>
    rw [htarget,map_some,some_or,Anchor.movedTo]
    by_cases hle : 0≤target
    · rw [if_pos hle,← hrows]
      by_cases hlt : target.toNat<next.rows.length
      · rw [if_pos ⟨hle,hlt⟩,anchorAt,getElem?_eq_getElem hlt]
        rfl
      · rw [if_neg fun h => hlt h.2,anchorAt,getElem?_eq_none (by omega)]
        rfl
    · rw [if_neg fun h => hle h.1,if_neg hle]
  next hnone => rw [hnone,map_none,none_or]

theorem anchorAt_caretRow {row toEnd : Nat} (column : Nat)
    (h : caretRow rows.length toEnd=some row) : (anchorAt rows row column).isSome=true := by
  unfold caretRow at h
  split at h
  next hin =>
    cases h
    rw [anchorAt,getElem?_eq_getElem (by omega)]
    rfl
  · cases h

/-- What an alignment makes of an anchor on a row of the last read, its start accepted. -/
theorem mapAnchor_followed {next : Screen} (hrefused : aligned.refused=false)
    (hiff : ∀ row target, surviving current aligned (aligned.fates current) read row=some target ↔
      Survives current read aligned.fixed outcome row target)
    (hrows : ∀ row column, anchorAt next.rows row column=anchorAt rows row column)
    (hcaret : next.caret=caretRow rows.length read.caretRowsToEnd) {anchor : Anchor}
    (hrow : 0≤anchor.row) :
    Followed current read rows aligned.fixed outcome anchor
      (mapAnchor anchor current aligned (aligned.fates current) next read) := by
  have hsurvives {target : Int}
      (h : Survives current read aligned.fixed outcome anchor.row target) :
      mapAnchor anchor current aligned (aligned.fates current) next read =
        some (anchor.movedTo rows target) := by
    rw [mapAnchor_eq hrefused hrows,nearestSurviving,(hiff _ _).mpr h]
    rfl
  have hback : ((anchor.row.toNat : Nat) : Int)=anchor.row := Int.toNat_of_nonneg hrow
  refine ⟨?_,?_,?_,?_,?_,?_⟩
  · rintro target (hfate | hfate)
    · exact hsurvives (hback ▸ .kept hfate)
    · exact hsurvives (hback ▸ .rewritten hfate)
  · intro hfate
    have h : Survives current read aligned.fixed outcome (anchor.row.toNat : Nat)
      ((anchor.row.toNat : Nat)-current.skipped+baseShift current read) := .above hfate
    rw [hback] at h
    exact hsurvives h
  · intro row hle target hsurvived hothers
    have hlow : -1≤row := by
      by_contra hlt
      -- every row of the history survives where one does
      cases hsurvived with
      | history hneg hstart =>
        exact hothers (-1) (by omega) (by omega) _ (.history (by omega) hstart)
      | _ => omega
    have hnone : ∀ other≤anchor.row, row<other →
        surviving current aligned (aligned.fates current) read other=none := by
      intro other hother hlt
      rw [eq_none_iff_forall_ne_some]
      exact fun went hwent => hothers other hother hlt went ((hiff _ _).mp hwent)
    rw [mapAnchor_eq hrefused hrows,nearestSurviving_eq_some hlow hle (by omega)
      ((hiff _ _).mpr hsurvived) hnone]
    rfl
  · intro hothers
    have hnone : ∀ row≤anchor.row,
        surviving current aligned (aligned.fates current) read row=none := by
      intro row hle
      rw [eq_none_iff_forall_ne_some]
      exact fun went hwent => hothers row hle went ((hiff _ _).mp hwent)
    rw [mapAnchor_eq hrefused hrows,nearestSurviving_eq_none _ hnone,hcaret]
    rfl
  · intro hsome
    obtain ⟨row,hcaretRow⟩ := isSome_iff_exists.mp hsome
    rw [mapAnchor_eq hrefused hrows,hcaret,hcaretRow,isSome_or,Bool.or_eq_true]
    exact .inr (anchorAt_caretRow _ hcaretRow)
  · intro found hfound index row hindex hget
    rw [mapAnchor_eq hrefused hrows,or_eq_some_iff] at hfound
    obtain hfound | ⟨-,hfound⟩ := hfound
    · obtain ⟨target,-,rfl⟩ := map_eq_some_iff.mp hfound
      rw [Anchor.movedTo_row] at hindex
      exact anchor.movedTo_inside hindex hget
    obtain ⟨at',-,hat⟩ := bind_eq_some_iff.mp hfound
    obtain ⟨heq,hrow⟩ := anchorAt_eq_some hat
    obtain rfl : at'=index := by omega
    exact hrow row hget

theorem alignRead_above {trusted : Bool} {caret : Option Nat} {row : Nat}
    (h : ((alignRead current rows read caret trusted).fates current)[row]?=some .above) :
    read.atDocumentStart=false := by
  obtain hlt | hle := lt_or_ge row current.skipped
  · rw [Aligned.fates,getElem?_append_left (by simpa using hlt)] at h
    obtain ⟨trimmed,-,hfate⟩ := mem_map.mp (mem_of_getElem? h)
    simp only at hfate
    split at hfate
    · split at hfate <;> cases hfate
    split at hfate
    · cases hfate
    next hleft => exact (Bool.not_eq_true _).mp hleft
  · rw [Aligned.fates,getElem?_append_right (by simpa using hle)] at h
    exact classify_above (keptPairs_kept current rows read trusted) h

end Follow

/-- Two rows of history above a screen of two rows, the review position on the first. -/
def historyMemory : TerminalMemory :=
  let first := readLines [("a",4),("b",4),("c",4),("d",4)] 2 2 false
  (TerminalMemory.new.read monospaced {first with atDocumentStart := false}).1.setReview 0 0

def rotatedRead : Read :=
  {readLines [("b",4),("c",4),("d",4),("e",4)] 2 2 true with atDocumentStart := false}

end Verbatim.Terminal
