import Verbatim.Terminal.Passes
import Mathlib.Data.List.InsertIdx
import Mathlib.Data.List.Nodup

namespace Verbatim.Terminal

open List

theorem keepRows_sound {old window : List Nat} {keeps : Nat → Nat → Bool} {fixed : Int}
    (hold : Rising old) (hwindow : Rising window) :
    Parallel (keepRows old window keeps fixed) ∧
      ∀ p∈keepRows old window keeps fixed,p.1∈old ∧ p.2∈window ∧ keeps p.1 p.2=true := by
  obtain ⟨hsorted,hmem⟩ := keepPlaces_sound hold hwindow
  refine ⟨hsorted,fun p hp => ?_⟩
  obtain ⟨i,j,hi,hj,hkept⟩ := hmem p hp
  simp only [hi,hj] at hkept
  exact ⟨mem_of_getElem? hi,mem_of_getElem? hj,hkept⟩

theorem textRows_sorted (rows : List Row) : Rising (textRows rows) :=
  pairwise_lt_range.filter _

theorem hasText_of_mem_textRows {rows : List Row} {index : Nat} (h : index∈textRows rows) :
    hasText rows index=true :=
  (mem_filter.mp h).2

section Kept

variable {memory : Screen} {rows : List Row} {read : Read} {trusted : Bool} {source target : Nat}

theorem grows_grew (h : grows memory rows trusted source target=true) :
    trusted=true ∧ Grew memory.rows rows source target := by
  unfold grows at h
  split at h
  next o n ho hn =>
    simp only [Bool.and_eq_true] at h
    exact ⟨h.1.1.1.1.1,o,n,ho,hn,h.2⟩
  · cases h

/-- An old row is kept at a row with its text, or at its own grown where positions hold. -/
theorem keepsAt_cases (h : keepsAt memory rows read trusted source target=true) :
    sameHash memory.rows source rows target=true ∨
      (target : Int)-source=baseShift memory read ∧
        grows memory rows trusted source target=true := by
  simp only [keepsAt] at h
  split at h
  · rw [Bool.and_eq_true] at h
    exact .inl h.2
  split at h
  · rw [Bool.and_eq_true] at h
    exact .inl h.1
  · rwa [Bool.or_eq_true,Bool.and_eq_true,decide_eq_true_eq] at h

theorem keptPairs_sound (memory : Screen) (rows : List Row) (read : Read) (trusted : Bool) :
    Parallel (keptPairs memory rows read trusted) ∧
      ∀ p∈keptPairs memory rows read trusted, p.1∈textRows memory.rows ∧
        p.2∈keepWindow memory rows read trusted ∧
        keepsAt memory rows read trusted p.1 p.2=true :=
  keepRows_sound (textRows_sorted _) (pairwise_lt_range.filter _)

theorem keptPairs_kept (memory : Screen) (rows : List Row) (read : Read) (trusted : Bool) :
    KeptRows memory.rows rows (fixedShift memory rows read trusted)
      (keptPairs memory rows read trusted) := by
  obtain ⟨hsorted,hmem⟩ := keptPairs_sound memory rows read trusted
  refine ⟨hsorted,fun p hp => ?_,fun p hp => ?_⟩
  · obtain ⟨hsource,htarget,-⟩ := hmem p hp
    exact ⟨hasText_of_mem_textRows hsource,mem_range.mp (mem_filter.mp htarget).1⟩
  obtain hsame | ⟨hshift,hgrows⟩ := keepsAt_cases (hmem p hp).2.2
  · exact .inl hsame
  obtain ⟨htrusted,hgrew⟩ := grows_grew hgrows
  refine .inr ⟨hgrew,?_⟩
  rw [fixedShift,if_pos htrusted]
  omega

theorem keptWhole_kept (within : Nat) (fixed : Int) :
    KeptRows memory.rows rows fixed (keptWhole memory rows within) := by
  have hrange : Rising (List.range' within (rows.length-within)) := pairwise_lt_range'
  obtain ⟨hsorted,hmem⟩ :
      Parallel (keptWhole memory rows within) ∧
      ∀ p∈keptWhole memory rows within, p.1∈textRows memory.rows ∧
        p.2∈wholeWindow memory rows within ∧ sameHash memory.rows p.1 rows p.2=true :=
    keepRows_sound (textRows_sorted _) (hrange.filter _)
  refine ⟨hsorted,fun p hp => ?_,fun p hp => .inl (hmem p hp).2.2⟩
  obtain ⟨hsource,-,hsame⟩ := hmem p hp
  obtain ⟨_,_,-,hnew,-⟩ := sameHash_alike hsame
  exact ⟨hasText_of_mem_textRows hsource,(List.getElem?_eq_some_iff.mp hnew).1⟩

end Kept

section Lingering

/-- The rows of a table, numbered from `first` on, that came back. -/
def returnedRows (kinds : List NewRow) (first : Nat) : List Nat :=
  (kinds.zipIdx first).filterMap (fun (kind,target) => match kind with
    | .returned _ => some target
    | _ => none)

theorem returnedRows_cons (kind : NewRow) (kinds : List NewRow) (first : Nat)
    (h : ∀ moved, kind≠.returned moved) :
    returnedRows (kind::kinds) first=returnedRows kinds (first+1) := by
  cases kind with
  | returned moved => exact absurd rfl (h moved)
  | _ => rfl

theorem takeLingering_map {α : Type} (live : List α) (place : α → Int × Nat)
    (gone : α → Lingering) (hplace : ∀ row, (gone row).place=(place row).1)
    (hhash : ∀ row, (gone row).row.hash=(place row).2) (row : Row) (target : Nat) :
    takeLingering (live.map gone) row target =
      match nearestLingering (live.map place) row.hash target with
      | some index => (live.eraseIdx index).map gone
      | none => live.map gone := by
  have hsame : firstMin (fun index =>
      (((live.map gone)[index]?.map (·.place)).getD 0-(target : Int)).natAbs)
      ((List.range (live.map gone).length).filter fun index =>
        ((live.map gone)[index]?).any fun gone => gone.row.hash=row.hash) =
      nearestLingering (live.map place) row.hash target := by
    have hkey (index : Nat) : (((live.map gone)[index]?.map (·.place)).getD 0 -
        (target : Int)).natAbs=(((live.map place).getD index (0,0)).1-target).natAbs := by
      rw [getD_eq_getElem?_getD,getElem?_map,getElem?_map]
      cases live[index]? with
      | none => rfl
      | some row => simp [hplace]
    have hfilter (index : Nat) : ((live.map gone)[index]?).any
        (fun gone => gone.row.hash=row.hash) =
        ((live.map place)[index]?).any fun place => place.2=row.hash := by
      rw [getElem?_map,getElem?_map]
      cases live[index]? with
      | none => rfl
      | some row => simp [hhash]
    simp only [nearestLingering,hkey,hfilter,length_map]
  rw [takeLingering,hsame]
  cases nearestLingering (live.map place) row.hash target with
  | none => rfl
  | some index => exact eraseIdx_map _ _ _

theorem nearestLingering_map {α : Type} {live : List α} {place : α → Int × Nat}
    {hash target index : Nat} (h : nearestLingering (live.map place) hash target=some index) :
    ∃ row, live[index]?=some row ∧ (place row).2=hash := by
  obtain ⟨hrange,hhash⟩ := mem_filter.mp (firstMin_mem h)
  rw [mem_range,length_map] at hrange
  refine ⟨live[index],getElem?_eq_getElem hrange,?_⟩
  simpa [hrange] using hhash

theorem carryRows_lingering_cons (memory : Screen) (kind : NewRow) (row : Row)
    (rest : List (NewRow × Row)) (target : Nat) (lingering : List Lingering)
    (h : ∀ moved, kind≠.returned moved) :
    (carryRows memory ((kind,row)::rest) target lingering).2 =
      (carryRows memory rest (target+1) lingering).2 := by
  cases kind with
  | returned moved => exact absurd rfl (h moved)
  | _ => rfl

variable {α : Type} [DecidableEq α] {place : α → Int × Nat} {gone : α → Lingering}

/-- Each row of `pairs` that came back is a lingering row of its own among those `live`, and what
is left of them lingers on. -/
structure Returns (memory : Screen) (place : α → Int × Nat) (gone : α → Lingering) (live : List α)
    (pairs : List (NewRow × Row)) (target : Nat) (returns : List (Nat × α)) : Prop where
  targets : returns.map (·.1)=returnedRows (takeBack (live.map place) pairs target) target
  distinct : (returns.map (·.2)).Nodup
  taken : ∀ r∈returns, r.2∈live ∧ ∃ index pair, r.1=target+index ∧
    pairs[index]?=some pair ∧ pair.2.hash=(place r.2).2
  left : (carryRows memory ((takeBack (live.map place) pairs target).zip (pairs.map (·.2))) target
    (live.map gone)).2=(live.filter fun row => row∉returns.map (·.2)).map gone

variable {memory : Screen} {live : List α} {pairs : List (NewRow × Row)} {kind : NewRow}
  {row : Row} {target : Nat} {returns : List (Nat × α)}

theorem Returns.taken_cons {live' : List α} {pair : NewRow × Row}
    (h : Returns memory place gone live' pairs (target+1) returns) (hsub : live'⊆live) :
    ∀ r∈returns, r.2∈live ∧ ∃ index other, r.1=target+index ∧
      (pair::pairs)[index]?=some other ∧ other.2.hash=(place r.2).2 := by
  intro r hr
  obtain ⟨hlive,index,other,hindex,hpair,hhash⟩ := h.taken r hr
  exact ⟨hsub hlive,index+1,other,by omega,by simpa using hpair,hhash⟩

theorem Returns.skip (h : Returns memory place gone live pairs (target+1) returns)
    (hkind : ∀ moved, kind≠.returned moved)
    (heq : takeBack (live.map place) ((kind,row)::pairs) target =
      kind::takeBack (live.map place) pairs (target+1)) :
    Returns memory place gone live ((kind,row)::pairs) target returns := by
  refine ⟨?_,h.distinct,h.taken_cons (List.Subset.refl _),?_⟩
  · rw [heq,returnedRows_cons _ _ _ hkind]
    exact h.targets
  · rw [heq,map_cons,zip_cons_cons,carryRows_lingering_cons _ _ _ _ _ _ hkind]
    exact h.left

theorem eraseIdx_eq_filter {index : Nat} {item : α} (hlive : live.Nodup)
    (hitem : live[index]?=some item) :
    live.eraseIdx index=live.filter fun other => other≠item := by
  obtain ⟨hlt,rfl⟩ := List.getElem?_eq_some_iff.mp hitem
  rw [← List.Nodup.erase_getElem hlive index hlt,hlive.erase_eq_filter]
  refine filter_congr fun other _ => ?_
  rw [Bool.eq_iff_iff,bne_iff_ne,decide_eq_true_iff]

theorem Returns.take {index : Nat} {item : α} (hlive : live.Nodup)
    (hplace : ∀ row, (gone row).place=(place row).1)
    (hhash : ∀ row, (gone row).row.hash=(place row).2) (hkind : ¬ (kind≠.new ∨ row.isBlank=true))
    (hnear : nearestLingering (live.map place) row.hash target=some index)
    (hitem : live[index]?=some item) (hsame : (place item).2=row.hash)
    (h : Returns memory place gone (live.eraseIdx index) pairs (target+1) returns) :
    Returns memory place gone live ((kind,row)::pairs) target ((target,item)::returns) := by
  have htake : takeBack (live.map place) ((kind,row)::pairs) target =
      .returned (((live.map place).getD index (0,0)).1≠target) ::
        takeBack ((live.eraseIdx index).map place) pairs (target+1) := by
    rw [takeBack,if_neg hkind,hnear]
    simp only [eraseIdx_map]
  have herase := eraseIdx_eq_filter hlive hitem
  refine ⟨?_,?_,?_,?_⟩
  · rw [htake,map_cons,h.targets]
    rfl
  · refine nodup_cons.mpr ⟨fun hmem => ?_,h.distinct⟩
    obtain ⟨r,hr,heq⟩ := mem_map.mp hmem
    have := (h.taken r hr).1
    rw [herase,mem_filter,heq] at this
    simp at this
  · intro r hr
    obtain rfl | hr := mem_cons.mp hr
    · exact ⟨mem_of_getElem? hitem,0,(kind,row),rfl,rfl,hsame.symm⟩
    · exact h.taken_cons (eraseIdx_sublist _ _).subset r hr
  · rw [htake,map_cons,zip_cons_cons]
    simp only [carryRows]
    rw [takeLingering_map live place gone hplace hhash,hnear]
    rw [h.left,herase,filter_filter]
    congr 1
    refine filter_congr fun other _ => ?_
    rw [← Bool.decide_and]
    simp only [map_cons,mem_cons,not_or,and_comm]

theorem takeBack_returns (memory : Screen) (hplace : ∀ row, (gone row).place=(place row).1)
    (hhash : ∀ row, (gone row).row.hash=(place row).2)
    (hfresh : ∀ pair∈pairs, ∀ moved, pair.1≠.returned moved) (hlive : live.Nodup)
    (target : Nat) : ∃ returns, Returns memory place gone live pairs target returns := by
  induction pairs generalizing live target with
  | nil => exact ⟨[],rfl,nodup_nil,by simp,by simp [carryRows,takeBack]⟩
  | cons pair pairs ih =>
    obtain ⟨kind,row⟩ := pair
    have hkind := hfresh (kind,row) (by simp)
    have hrest : ∀ pair∈pairs, ∀ moved, pair.1≠.returned moved :=
      fun pair hpair => hfresh pair (mem_cons_of_mem _ hpair)
    by_cases hnew : kind≠.new ∨ row.isBlank=true
    · obtain ⟨returns,h⟩ := ih hrest hlive (target+1)
      exact ⟨returns,h.skip hkind (by rw [takeBack,if_pos hnew])⟩
    cases hnear : nearestLingering (live.map place) row.hash target with
    | none =>
      obtain ⟨returns,h⟩ := ih hrest hlive (target+1)
      exact ⟨returns,h.skip hkind (by rw [takeBack,if_neg hnew,hnear])⟩
    | some index =>
      obtain ⟨item,hitem,hsame⟩ := nearestLingering_map hnear
      obtain ⟨returns,h⟩ := ih hrest (hlive.eraseIdx index) (target+1)
      exact ⟨_,h.take hlive hplace hhash hnew hnear hitem hsame⟩

end Lingering

end Verbatim.Terminal
