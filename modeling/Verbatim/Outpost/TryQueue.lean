import Verbatim.Outpost.Effects
import Mathlib.Data.List.Infix

namespace Verbatim.Outpost

open List Option

section Alone

variable {A : Type}

def Alone (lists : List (List A)) : Prop := lists.Pairwise fun a b => a=[] ∨ b=[]

variable {lists : List (List A)} {list : List A}

theorem alone_of_empty (h : ∀ list∈lists, list=[]) : Alone lists :=
  pairwise_of_forall_mem_list fun a ha _ _ => .inl (h a ha)

theorem Alone.others (h : Alone (list::lists)) (hne : list≠[]) : ∀ other∈lists, other=[] :=
  fun other hother => ((pairwise_cons.mp h).1 other hother).resolve_left hne

theorem Alone.flatten_tail (h : Alone (list::lists)) : lists.flatten <+: (list::lists).flatten := by
  by_cases hne : list=[]
  · rw [hne]
    exact prefix_refl _
  · rw [flatten_eq_nil_iff.mpr (h.others hne)]
    exact nil_prefix

end Alone

/-- What waits behind the program in flight: an entry, and the try of a group it is made in. -/
abbrev Row := Entry × Option GroupTry

namespace Row

/-- The entries of its group a row still holds; the gap's read is none of them. -/
def left (row : Row) : List Entry :=
  match row.2 with
  | none => []
  | some group => if row.1.item.isGapRead then group.older else row.1::group.older

def tried (row : Row) : List (Nat × Entry) :=
  match row.2 with
  | none => []
  | some group => if row.1.item.isGapRead then [] else [(group.number,row.1)]

end Row

def continued (group : GroupTry) (after : List Row) : List Row :=
  match group.older with
  | entry::older => after++[(entry,some {group with rank := group.rank+1, older})]
  | [] => after

def finishedRows (group : Option GroupTry) (isOver : Bool) (after : List Row) : List Row :=
  match group,after with
  | none,_ => after
  | some group,(entry,next)::rest =>
      if entry.item.isGapRead then
        if isOver then (entry,none)::rest
        else (entry,next.map fun read => {read with older := group.older})::rest
      else if isOver then after else continued group after
  | some group,[] => if isOver then [] else continued group []

def abandonedRows (group : Option GroupTry) (published : Bool) (after : List Row) : List Row :=
  match group with
  | none => after
  | some group => if published then after else continued group after

/-- The focus groups' tries: what the program in flight is a try of, what waits behind it, and how
many groups there were. -/
structure TryQueue where
  flight : Option (Option GroupTry)
  after : List Row
  groups : Nat

namespace TryQueue

def IsRead (q : TryQueue) (row : Row) : Prop :=
  row.1.item.isGapRead=true ∧ row.2=q.flight.join.map fun group => {group with older := []}

/-- One move of the tries, with the tries it dispatches. Of the group `calm` it abandons no
unpublished try that has older entries while a gap's read waits. -/
inductive Moves (calm : Option Nat) (q : TryQueue) : TryQueue → List (Nat × Entry) → Prop where
  | reads {rows : List Row} (hrows : ∀ row∈rows, q.IsRead row) :
      Moves calm q {q with after := rows++q.after} []
  | finished {group : Option GroupTry} {isOver : Bool} (hflight : q.flight=some group) :
      Moves calm q ⟨none,finishedRows group isOver q.after,q.groups⟩ []
  | abandoned {group : Option GroupTry} {published : Bool} (hflight : q.flight=some group)
      (hcalm : published=false → ∀ g, group=some g → calm=some g.number → g.older≠[] →
        ∀ row∈q.after, row.1.item.isGapRead=false) :
      Moves calm q ⟨none,abandonedRows group published q.after,q.groups⟩ []
  | dispatched (hflight : q.flight=none) : Moves calm q {q with flight := some none} []
  | popped {row : Row} {rows : List Row} (hflight : q.flight=none)
      (hafter : q.after=row::rows) :
      Moves calm q {q with flight := some row.2, after := rows} row.tried
  | planned {batch : Nat} {newest : Entry} {older : List Entry} (hflight : q.flight=none)
      (hafter : q.after=[])
      (hplain : ∀ entry∈newest::older, entry.item.isGapRead=false) :
      Moves calm q ⟨some (some ⟨q.groups+1,0,batch,older⟩),[],q.groups+1⟩ [(q.groups+1,newest)]
  | passed (hflight : q.flight=none) (hafter : q.after=[]) :
      Moves calm q {q with groups := q.groups+1} []

def carried (q : TryQueue) : List (List Entry) :=
  q.flight.join.elim [] (·.older)::q.after.map Row.left

def left (number : Nat) (q : TryQueue) : List Entry :=
  if number=q.groups then q.carried.flatten else []

/-- What holds between moves: one holder of what is left, of the newest group. -/
structure Formed (q : TryQueue) : Prop where
  alone : Alone q.carried
  newest : ∀ group∈q.flight.join.toList++q.after.filterMap (·.2), group.number=q.groups
  plain : ∀ entry∈q.carried.flatten, entry.item.isGapRead=false
  grouped : ∀ row∈q.after, row.1.item.isGapRead=true ∨ row.2.isSome=true

/-- What holds of a group between calm moves: behind a try no row has entries left, nor behind a
try's row. -/
structure Clear (q : TryQueue) : Prop where
  behind : q.flight.join.isSome=true → ∀ row∈q.after, row.left=[]
  rows : q.after.Pairwise fun a b => a.2=none ∨ b.left=[]

theorem left_of_read {q : TryQueue} {row : Row} (h : q.IsRead row) : row.left=[] := by
  unfold Row.left
  rw [h.2]
  cases q.flight.join with
  | none => rfl
  | some group => simp [h.1]

theorem tried_left {row : Row} {number : Nat} (hnumber : ∀ group∈row.2, group.number=number) :
    (row.tried.filter fun t => t.1=number).map Prod.snd++row.2.elim [] (·.older)=row.left := by
  unfold Row.tried Row.left
  cases hgroup : row.2 with
  | none => rfl
  | some group =>
    have := hnumber group (by rw [hgroup]; rfl)
    cases hread : row.1.item.isGapRead <;> simp [this]

/-- What a try that ends leaves of the rows behind it. -/
structure Leaves (group : GroupTry) (after after' : List Row) : Prop where
  alone : Alone (after'.map Row.left)
  order : (after'.map Row.left).flatten <+: (group.older::after.map Row.left).flatten
  numbers : (∀ g∈after.filterMap (·.2), g.number=group.number) →
    ∀ g∈after'.filterMap (·.2), g.number=group.number
  grouped : (∀ row∈after, row.1.item.isGapRead=true ∨ row.2.isSome=true) →
    ∀ row∈after', row.1.item.isGapRead=true ∨ row.2.isSome=true

section Ends

variable {group : GroupTry} {after : List Row}

section

variable (halone : Alone (group.older::after.map Row.left))

include halone

theorem leaves_same : Leaves group after after :=
  ⟨(pairwise_cons.mp halone).2,halone.flatten_tail,fun h => h,fun h => h⟩

theorem leaves_continued (hplain : ∀ entry∈group.older, entry.item.isGapRead=false) :
    Leaves group after (continued group after) := by
  unfold continued
  split
  next entry older holder =>
    have hempty := halone.others (by simp [holder])
    have hleft : Row.left (entry,some {group with rank := group.rank+1, older}) =
        group.older := by
      simp [Row.left,hplain entry (by simp [holder]),holder]
    refine ⟨?_,?_,?_,?_⟩
    · rw [map_append]
      refine pairwise_append.mpr ⟨alone_of_empty hempty,pairwise_singleton _ _,?_⟩
      exact fun a ha b _ => .inl (hempty a ha)
    · rw [map_append,flatten_append,flatten_cons,flatten_eq_nil_iff.mpr hempty]
      simp [hleft]
    · intro h g hg
      rw [filterMap_append] at hg
      rcases mem_append.mp hg with hg | hg
      · exact h g hg
      · obtain rfl : g={group with rank := group.rank+1, older} := by simpa using hg
        rfl
    · intro h row hrow
      rcases mem_append.mp hrow with hrow | hrow
      · exact h row hrow
      · exact .inr (by simp_all)
  · exact leaves_same halone

omit halone in
/-- The gap's read at the head keeps its try or leaves it, and the older entries with it. -/
theorem leaves_head {entry : Entry} {next next' : Option GroupTry} {rest : List Row}
    (halone : Alone (group.older::((entry,next)::rest).map Row.left))
    (hread : entry.item.isGapRead=true)
    (hnext : next'=none ∨ ∃ read, next=some read ∧ next'=some {read with older := group.older}) :
    Leaves group ((entry,next)::rest) ((entry,next')::rest) := by
  have hrest : Alone (((entry,next)::rest).map Row.left) := (pairwise_cons.mp halone).2
  have hgrouped : (∀ row∈(entry,next)::rest, row.1.item.isGapRead=true ∨ row.2.isSome=true) →
      ∀ row∈(entry,next')::rest, row.1.item.isGapRead=true ∨ row.2.isSome=true := by
    intro h row hrow
    rcases mem_cons.mp hrow with rfl | hrow
    · exact .inl hread
    · exact h row (mem_cons_of_mem _ hrow)
  rcases hnext with rfl | ⟨read,rfl,rfl⟩
  · have hnone : Row.left (entry,none)=[] := rfl
    refine ⟨?_,?_,?_,hgrouped⟩
    · exact pairwise_cons.mpr ⟨fun _ _ => .inl rfl,(pairwise_cons.mp hrest).2⟩
    · exact hrest.flatten_tail.trans halone.flatten_tail
    intro h g hg
    refine h g ?_
    cases next with
    | none => exact hg
    | some read => exact mem_cons_of_mem _ hg
  have hleft : Row.left (entry,some {read with older := group.older})=group.older := by
    simp [Row.left,hread]
  refine ⟨?_,?_,?_,hgrouped⟩
  · rw [map_cons,hleft]
    refine pairwise_cons.mpr ⟨?_,(pairwise_cons.mp hrest).2⟩
    exact fun list hlist => (pairwise_cons.mp halone).1 list (mem_cons_of_mem _ hlist)
  · rw [map_cons,hleft,flatten_cons,flatten_cons]
    exact (prefix_append_right_inj _).mpr hrest.flatten_tail
  · intro h g hg
    rcases mem_cons.mp hg with rfl | hg
    · exact h read mem_cons_self
    · exact h g (mem_cons_of_mem _ hg)

theorem leaves_finished (hplain : ∀ entry∈group.older, entry.item.isGapRead=false) (isOver : Bool) :
    Leaves group after (finishedRows (some group) isOver after) := by
  cases after with
  | nil =>
    simp only [finishedRows]
    split
    · exact leaves_same halone
    · exact leaves_continued halone hplain
  | cons row rest =>
    obtain ⟨entry,next⟩ := row
    simp only [finishedRows]
    split
    next hread =>
      split
      · exact leaves_head halone hread (.inl rfl)
      refine leaves_head halone hread ?_
      cases next with
      | none => exact .inl rfl
      | some read => exact .inr ⟨read,rfl,rfl⟩
    · split
      · exact leaves_same halone
      · exact leaves_continued halone hplain

theorem leaves_abandoned (hplain : ∀ entry∈group.older, entry.item.isGapRead=false)
    (published : Bool) : Leaves group after (abandonedRows (some group) published after) := by
  cases published with
  | true => exact leaves_same halone
  | false => exact leaves_continued halone hplain

end

end Ends

variable {calm : Option Nat} {q q' : TryQueue} {trace : List (Nat × Entry)}

def ofGroup (number : Nat) (trace : List (Nat × Entry)) : List Entry :=
  (trace.filter fun tried => tried.1=number).map Prod.snd

@[simp] theorem ofGroup_nil (number : Nat) : ofGroup number []=[] := rfl

@[simp] theorem ofGroup_append (number : Nat) (xs ys : List (Nat × Entry)) :
    ofGroup number (xs++ys)=ofGroup number xs++ofGroup number ys := by
  simp [ofGroup]

theorem carried_of {flight : Option (Option GroupTry)} (h : q.flight=flight) :
    q.carried=flight.join.elim [] (·.older)::q.after.map Row.left := by
  rw [carried,h]

/-- What moves do: they keep the queue formed, and what they try of a group there already is with
what is left after them the beginning of what was left. -/
def Keeps (q q' : TryQueue) (trace : List (Nat × Entry)) : Prop :=
  q'.Formed ∧ q.groups ≤ q'.groups ∧
    ∀ number≤q.groups, ofGroup number trace++q'.left number <+: q.left number

theorem Formed.keeps (h : q'.Formed) (horder : q'.carried.flatten <+: q.carried.flatten)
    (hgroups : q'.groups=q.groups) : Keeps q q' [] := by
  refine ⟨h,hgroups.ge,fun number _ => ?_⟩
  unfold left
  rw [hgroups]
  split
  · exact horder
  · exact prefix_refl _

/-- A try that ends leaves its group formed, its older entries with one holder or none. -/
theorem ends_keeps (h : q.Formed) {group : Option GroupTry} (hflight : q.flight=some group)
    (after' : List Row) (hnone : group=none → after'=q.after)
    (hsome : ∀ g, group=some g → Leaves g q.after after') :
    Keeps q ⟨none,after',q.groups⟩ [] := by
  cases group with
  | none =>
    obtain rfl := hnone rfl
    have hcarried : carried ⟨none,q.after,q.groups⟩=q.carried := (carried_of hflight).symm
    refine Formed.keeps ⟨hcarried ▸ h.alone,?_,hcarried ▸ h.plain,h.grouped⟩ (by rw [hcarried]) rfl
    intro g hg
    exact h.newest g (mem_append_right _ hg)
  | some group =>
    have hleaves := hsome group rfl
    have hcarried : q.carried=group.older::q.after.map Row.left := carried_of hflight
    have hnumber : group.number=q.groups := h.newest group (by rw [hflight]; simp)
    have horder : (carried ⟨none,after',q.groups⟩).flatten <+: q.carried.flatten := by
      rw [hcarried]
      exact hleaves.order
    refine Formed.keeps ⟨?_,?_,?_,hleaves.grouped h.grouped⟩ horder rfl
    · exact pairwise_cons.mpr ⟨fun _ _ => .inl rfl,hleaves.alone⟩
    · intro g hg
      rw [← hnumber]
      refine hleaves.numbers (fun g hg => ?_) g hg
      rw [hnumber]
      exact h.newest g (mem_append_right _ hg)
    · exact fun entry hentry => h.plain entry (horder.subset hentry)

variable {group : GroupTry}

theorem Formed.flying (h : q.Formed) (hflight : q.flight=some (some group)) :
    Alone (group.older::q.after.map Row.left) ∧
      ∀ entry∈group.older, entry.item.isGapRead=false := by
  have hcarried : q.carried=group.older::q.after.map Row.left := carried_of hflight
  refine ⟨hcarried ▸ h.alone,fun entry hentry => h.plain entry ?_⟩
  rw [hcarried,flatten_cons]
  exact mem_append_left _ hentry

theorem reads_keeps (h : q.Formed) {rows : List Row} (hrows : ∀ row∈rows, q.IsRead row) :
    Keeps q {q with after := rows++q.after} [] := by
  have hempty : ∀ list∈rows.map Row.left, list=[] := by
    intro list hlist
    obtain ⟨row,hrow,rfl⟩ := mem_map.mp hlist
    exact left_of_read (hrows row hrow)
  have hflatten : (carried {q with after := rows++q.after}).flatten=q.carried.flatten := by
    simp [carried,flatten_eq_nil_iff.mpr hempty]
  have hparts := pairwise_cons.mp h.alone
  refine Formed.keeps ⟨?_,?_,hflatten ▸ h.plain,?_⟩ (by rw [hflatten]) rfl
  · refine pairwise_cons.mpr ⟨?_,?_⟩
    · intro list hlist
      rw [map_append] at hlist
      exact (mem_append.mp hlist).elim (fun hlist => .inr (hempty list hlist)) (hparts.1 list)
    · rw [map_append]
      refine pairwise_append.mpr ⟨alone_of_empty hempty,hparts.2,?_⟩
      exact fun a ha _ _ => .inl (hempty a ha)
  · intro g hg
    rw [filterMap_append,← append_assoc] at hg
    rcases mem_append.mp hg with hg | hg
    · rcases mem_append.mp hg with hg | hg
      · exact h.newest g (mem_append_left _ hg)
      obtain ⟨row,hrow,hgroup⟩ := mem_filterMap.mp hg
      rw [(hrows row hrow).2] at hgroup
      obtain ⟨flying,hflying,rfl⟩ := map_eq_some_iff.mp hgroup
      exact h.newest flying (by simp [hflying])
    · exact h.newest g (mem_append_right _ hg)
  · intro row hrow
    rcases mem_append.mp hrow with hrow | hrow
    · exact .inl (hrows row hrow).1
    · exact h.grouped row hrow

/-- The try popped and what its row leaves are what the row held. -/
theorem popped_keeps (h : q.Formed) {row : Row} {rows : List Row} (hflight : q.flight=none)
    (hafter : q.after=row::rows) :
    Keeps q {q with flight := some row.2, after := rows} row.tried := by
  have hcarried : q.carried=[]::row.left::rows.map Row.left := by
    rw [carried_of hflight,hafter]
    rfl
  have hnumber : ∀ group∈row.2, group.number=q.groups := fun group hgroup => by
    refine h.newest group (mem_append_right _ ?_)
    rw [hafter]
    exact mem_filterMap.mpr ⟨row,mem_cons_self,hgroup⟩
  have hsplit := tried_left hnumber
  have halone := (pairwise_cons.mp (hcarried ▸ h.alone)).2
  have holder : row.2.elim [] (·.older)=[] ∨ ∀ list∈rows.map Row.left, list=[] := by
    by_cases hleft : row.left=[]
    · rw [hleft] at hsplit
      exact .inl (append_eq_nil_iff.mp hsplit).2
    · exact .inr (Alone.others halone hleft)
  refine ⟨⟨?_,?_,?_,?_⟩,le_rfl,fun number _ => ?_⟩
  · refine pairwise_cons.mpr ⟨fun list hlist => ?_,(pairwise_cons.mp halone).2⟩
    exact holder.imp_right fun hempty => hempty list hlist
  · intro g hg
    rcases mem_append.mp hg with hg | hg
    · exact hnumber g (by simpa using hg)
    refine h.newest g (mem_append_right _ ?_)
    obtain ⟨other,hother,hgroup⟩ := mem_filterMap.mp hg
    rw [hafter]
    exact mem_filterMap.mpr ⟨other,mem_cons_of_mem _ hother,hgroup⟩
  · intro entry hentry
    refine h.plain entry ?_
    rw [hcarried,flatten_cons,flatten_cons,← hsplit]
    simp only [nil_append,append_assoc]
    exact mem_append_right _ hentry
  · exact fun other hother => h.grouped other (hafter ▸ mem_cons_of_mem _ hother)
  · by_cases hnow : number=q.groups
    · subst hnow
      unfold left
      rw [if_pos rfl,if_pos rfl,hcarried,flatten_cons,flatten_cons,← hsplit]
      simp only [nil_append,append_assoc]
      exact prefix_refl _
    · unfold left
      rw [if_neg hnow,if_neg hnow]
      have hnone : ofGroup number row.tried=[] := by
        unfold Row.tried
        split
        · rfl
        next group hgroup =>
          split
          · rfl
          · have := hnumber group (by rw [hgroup]; rfl)
            simp [ofGroup,this,Ne.symm hnow]
      rw [hnone]
      exact prefix_refl _

theorem Moves.keeps (hmove : Moves calm q q' trace) (h : q.Formed) : Keeps q q' trace := by
  cases hmove with
  | reads hrows => exact reads_keeps h hrows
  | @finished group isOver hflight =>
    refine ends_keeps h hflight _ (fun hnone => by rw [hnone]; rfl) fun g hg => ?_
    subst hg
    exact leaves_finished (h.flying hflight).1 (h.flying hflight).2 isOver
  | @abandoned group published hflight hcalm =>
    refine ends_keeps h hflight _ (fun hnone => by rw [hnone]; rfl) fun g hg => ?_
    subst hg
    exact leaves_abandoned (h.flying hflight).1 (h.flying hflight).2 published
  | dispatched hflight =>
    have hcarried : carried {q with flight := some none}=q.carried := (carried_of hflight).symm
    refine Formed.keeps ⟨hcarried ▸ h.alone,?_,hcarried ▸ h.plain,h.grouped⟩ (by rw [hcarried]) rfl
    exact fun g hg => h.newest g (mem_append_right _ hg)
  | popped hflight hafter => exact popped_keeps h hflight hafter
  | @planned batch newest older hflight hafter hplain =>
    have hcarried : carried ⟨some (some ⟨q.groups+1,0,batch,older⟩),[],q.groups+1⟩=[older] := rfl
    refine ⟨⟨?_,by simp,?_,by simp⟩,Nat.le_succ _,fun number hle => ?_⟩
    · exact pairwise_singleton _ _
    · rw [hcarried]
      exact fun entry hentry => hplain entry (mem_cons_of_mem _ (by simpa using hentry))
    have hne : number≠q.groups+1 := by omega
    simp [left,ofGroup,hne,hne.symm]
  | passed hflight hafter =>
    refine ⟨⟨h.alone,?_,h.plain,h.grouped⟩,Nat.le_succ _,fun number hle => ?_⟩
    · simp [hflight,hafter]
    have hne : number≠q.groups+1 := by omega
    simp [left,hne]

theorem Formed.read_of_left (h : q.Formed) {row : Row} (hrow : row∈q.after)
    (hleft : row.left=[]) : row.1.item.isGapRead=true := by
  rcases h.grouped row hrow with hread | hsome
  · exact hread
  obtain ⟨group,hgroup⟩ := isSome_iff_exists.mp hsome
  by_contra hread
  rw [Row.left,hgroup] at hleft
  simp [hread] at hleft

variable {after : List Row}

theorem clear_of_empty {groups : Nat} (h : ∀ row∈after, row.left=[]) :
    Clear ⟨none,after,groups⟩ := by
  refine ⟨fun hsome => ?_,pairwise_of_forall_mem_list fun _ _ b hb => .inr (h b hb)⟩
  cases hsome

theorem finished_over (h : ∀ row∈after, row.left=[]) :
    ∀ row∈finishedRows (some group) true after, row.left=[] := by
  cases after with
  | nil => exact h
  | cons row rest =>
    simp only [finishedRows,if_true]
    split
    · intro row hrow
      rcases mem_cons.mp hrow with rfl | hrow
      · rfl
      · exact h row (mem_cons_of_mem _ hrow)
    · exact h

theorem clear_continued {groups : Nat} (h : ∀ row∈after, row.left=[])
    (hnone : group.older≠[] → after=[]) : Clear ⟨none,continued group after,groups⟩ := by
  unfold continued
  split
  next entry older holder =>
    rw [hnone (by simp [holder])]
    refine ⟨fun hsome => ?_,pairwise_singleton _ _⟩
    cases hsome
  · exact clear_of_empty h

theorem clear_finished (hformed : q.Formed) (h : ∀ row∈q.after, row.left=[]) (isOver : Bool) :
    Clear ⟨none,finishedRows (some group) isOver q.after,q.groups⟩ := by
  cases isOver with
  | true => exact clear_of_empty (finished_over h)
  | false =>
    cases hafter : q.after with
    | nil => exact clear_continued (by simp) fun _ => rfl
    | cons row rest =>
      obtain ⟨entry,next⟩ := row
      rw [hafter] at h
      have hread : entry.item.isGapRead=true :=
        hformed.read_of_left (hafter ▸ mem_cons_self) (h _ mem_cons_self)
      have hrest : ∀ row∈rest, row.left=[] := fun row hrow =>
        h row (mem_cons_of_mem _ hrow)
      simp only [finishedRows,hread,if_true,Bool.false_eq_true,if_false]
      refine ⟨fun hsome => ?_,pairwise_cons.mpr ⟨fun b hb => .inr (hrest b hb),?_⟩⟩
      · cases hsome
      · exact pairwise_of_forall_mem_list fun _ _ b hb => .inr (hrest b hb)

theorem Moves.clear {number : Nat} (hmove : Moves (some number) q q' trace) (hformed : q.Formed)
    (h : q.groups=number → q.Clear) (hnumber : q'.groups=number) : q'.Clear := by
  cases hmove with
  | @reads rows hrows =>
    have h := h hnumber
    refine ⟨?_,pairwise_append.mpr ⟨?_,h.rows,?_⟩⟩
    · intro hsome row hrow
      exact (mem_append.mp hrow).elim (fun hrow => left_of_read (hrows row hrow))
        (h.behind hsome row)
    · exact pairwise_of_forall_mem_list fun _ _ b hb => .inr (left_of_read (hrows b hb))
    · intro a ha b hb
      cases hflying : q.flight.join with
      | none => exact .inl (by rw [(hrows a ha).2,hflying]; rfl)
      | some group => exact .inr (h.behind (by rw [hflying]; rfl) b hb)
  | @finished group isOver hflight =>
    have h := h hnumber
    cases group with
    | none => exact ⟨fun hsome => absurd hsome (by simp),h.rows⟩
    | some group => exact clear_finished hformed (h.behind (by rw [hflight]; rfl)) isOver
  | @abandoned group published hflight hcalm =>
    have h := h hnumber
    cases group with
    | none => exact ⟨fun hsome => absurd hsome (by simp),h.rows⟩
    | some group =>
      have hbehind := h.behind (by rw [hflight]; rfl)
      cases published with
      | true => exact clear_of_empty hbehind
      | false =>
        refine clear_continued hbehind fun holder => ?_
        refine eq_nil_iff_forall_not_mem.mpr fun row hrow => ?_
        have hread := hformed.read_of_left hrow (hbehind row hrow)
        have hgroup : group.number=number :=
          (hformed.newest group (by rw [hflight]; simp)).trans hnumber
        rw [hcalm rfl group rfl (hgroup ▸ rfl) holder row hrow] at hread
        cases hread
  | dispatched hflight => exact ⟨fun hsome => absurd hsome (by simp),(h hnumber).rows⟩
  | @popped row rows hflight hafter =>
    have h := h hnumber
    have hrows := h.rows
    rw [hafter] at hrows
    obtain ⟨hhead,htail⟩ := pairwise_cons.mp hrows
    refine ⟨fun hsome other hother => (hhead other hother).resolve_left ?_,htail⟩
    exact isSome_iff_ne_none.mp hsome
  | planned hflight hafter hplain =>
    exact ⟨fun _ row hrow => absurd hrow not_mem_nil,List.Pairwise.nil⟩
  | passed hflight hafter => exact ⟨by simp [hafter],by simp [hafter]⟩

theorem Moves.upTo (hmove : Moves calm q q' trace) (h : q.Formed) :
    ∀ tried∈trace, tried.1≤q'.groups := by
  cases hmove with
  | @popped row rows hflight hafter =>
    intro tried htried
    unfold Row.tried at htried
    split at htried
    · cases htried
    next group hgroup =>
      split at htried
      · cases htried
      obtain rfl := mem_singleton.mp htried
      refine (h.newest group (mem_append_right _ ?_)).le
      rw [hafter]
      exact mem_filterMap.mpr ⟨row,mem_cons_self,hgroup⟩
  | planned hflight hafter hplain =>
    intro tried htried
    obtain rfl := mem_singleton.mp htried
    exact le_rfl
  | _ => exact forall_mem_nil _

inductive Path (calm : Option Nat) (q : TryQueue) : TryQueue → List (Nat × Entry) → Prop where
  | refl : Path calm q q []
  | step {q' q'' : TryQueue} {trace trace' : List (Nat × Entry)} (hpath : Path calm q q' trace)
      (hmove : Moves calm q' q'' trace') : Path calm q q'' (trace++trace')

namespace Path

variable {q'' : TryQueue} {trace' : List (Nat × Entry)}

theorem one (h : Moves calm q q' trace) : Path calm q q' trace := .step .refl h

theorem trans (h : Path calm q q' trace) (h' : Path calm q' q'' trace') :
    Path calm q q'' (trace++trace') := by
  induction h' with
  | refl => rwa [append_nil]
  | step _ hmove ih =>
    rw [← append_assoc]
    exact .step ih hmove

section

variable (hpath : Path calm q q' trace)

include hpath

variable (h : q.Formed)
include h

theorem keeps : Keeps q q' trace := by
  induction hpath with
  | refl => exact ⟨h,le_rfl,fun number _ => prefix_refl _⟩
  | step _ hmove ih =>
    obtain ⟨hformed,hle,horder⟩ := ih
    obtain ⟨hformed',hle',horder'⟩ := hmove.keeps hformed
    refine ⟨hformed',hle.trans hle',fun number hnumber => ?_⟩
    rw [ofGroup_append,append_assoc]
    exact ((prefix_append_right_inj _).mpr
      (horder' number (hnumber.trans hle))).trans (horder number hnumber)

theorem upTo : ∀ tried∈trace, tried.1≤q'.groups := by
  induction hpath with
  | refl => exact forall_mem_nil _
  | step hpath hmove ih =>
    have hformed := (hpath.keeps h).1
    intro tried htried
    rcases mem_append.mp htried with htried | htried
    · exact (ih tried htried).trans (hmove.keeps hformed).2.1
    · exact hmove.upTo hformed tried htried

theorem none_later {number : Nat} (hnumber : q'.groups<number) : ofGroup number trace=[] := by
  have hnone : trace.filter (fun tried => tried.1=number)=[] := by
    refine filter_eq_nil_iff.mpr fun tried htried => ?_
    have hle := hpath.upTo h tried htried
    simp only [decide_eq_true_eq]
    omega
  rw [ofGroup,hnone,map_nil]

theorem none_left {number : Nat}
    (hnumber : number≤q.groups) (hleft : q.left number=[]) : ofGroup number trace=[] := by
  have horder := (hpath.keeps h).2.2 number hnumber
  rw [hleft] at horder
  exact (append_eq_nil_iff.mp (prefix_nil.mp horder)).1

end

theorem clear {number : Nat} (hpath : Path (some number) q q' trace) (hformed : q.Formed)
    (h : q.Clear) : q'.groups=number → q'.Clear := by
  induction hpath with
  | refl => exact fun _ => h
  | step hpath hmove ih => exact hmove.clear (hpath.keeps hformed).1 ih

end Path

end TryQueue

end Verbatim.Outpost
