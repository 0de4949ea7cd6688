import Verbatim.Flood.Backlog

namespace Verbatim.Flood

open Verbatim.Terminal List Bounded Adding Dropping Nat

/-- What is left of items once their front is dropped: its count, then the rest. -/
def Dropping.kept (d : Dropping) (items : List Waiting) : List Waiting :=
  countLeft (d.run items).1.skipped++(d.run items).2

variable (graphemes : Graphemes)

/-- The queue as it is meant: every item is added, a skipped count to one that is last, and then
the backlog is brought down to what either limit could keep. -/
def plainQueue (full last : Nat) (group : Option Nat)
    (waiting : List Waiting) (items : List SaidItem) : List Waiting :=
  let keep := max full last
  let all := (added graphemes items .exactly).foldl pushAdded waiting
  let start := backlogStart all (group.getD 0)
  if waitingLines (all.drop start)≤keep then all else skipAllBut all start keep

def Bounded.addAll (b : Bounded) (waiting items : List Waiting) : List Waiting :=
  let (b,waiting) := items.foldl (fun (b,waiting) item => b.add waiting item) (b,waiting)
  (b.ended waiting).2

theorem Bounded.addAll_cons (b : Bounded) (waiting : List Waiting) (item : Waiting)
    (items : List Waiting) :
    b.addAll waiting (item::items)=(b.add waiting item).1.addAll (b.add waiting item).2 items :=
  rfl

section Bounded

variable {d : Dropping} (waiting items : List Waiting)

theorem Bounded.addAll_kept : addAll ⟨none,false,d⟩ waiting items=waiting++items := by
  induction items generalizing waiting with
  | nil => exact (append_nil _).symm
  | cons item items ih =>
    exact (ih (waiting++[item])).trans (by simp)

theorem Bounded.addAll_skipping : addAll ⟨none,true,d⟩ waiting items=waiting++d.kept items := by
  induction items generalizing d with
  | nil => simp [addAll,ended,kept,run]
  | cons item items ih =>
    rw [addAll_cons,kept,run]
    cases hdrops : d.drops item with
    | true =>
      have hadd : add ⟨none,true,d⟩ waiting item=(⟨none,true,d.drop item⟩,waiting) := by
        simp [add,addBehind,hdrops]
      rw [hadd]
      exact ih
    | false =>
      have hadd : add ⟨none,true,d⟩ waiting item =
          (⟨none,false,{d with skipped := none}⟩,waiting++countLeft d.skipped++[item]) := by
        simp [add,addBehind,ended,hdrops]
      rw [hadd,addAll_kept]
      simp

theorem Bounded.addAll_last (hnone : d.skipped=none) :
    addAll ⟨some 0,false,d⟩ waiting items =
      waiting++items.take (items.takeWhile belongs).length ++
        d.kept (items.drop (items.takeWhile belongs).length) := by
  induction items generalizing waiting with
  | nil => simp [addAll,ended,kept,run,hnone,countLeft]
  | cons item items ih =>
    cases hbelongs : belongs item with
    | true =>
      have hadd : add ⟨some 0,false,d⟩ waiting item=(⟨some 0,false,d⟩,waiting++[item]) := by
        simp [add,hbelongs]
      rw [addAll_cons,hadd,ih]
      simp [hbelongs]
    | false =>
      have hadd : add ⟨some 0,false,d⟩ waiting item=add ⟨none,true,d⟩ waiting item := by
        simp [add,hbelongs]
      rw [addAll_cons,hadd,← addAll_cons,addAll_skipping]
      simp [hbelongs]

theorem Bounded.addAll_group (hnone : d.skipped=none) (left : Nat) :
    addAll ⟨some (left+1),false,d⟩ waiting items =
      waiting++items.take (backlogStart items (left+1)) ++
        d.kept (items.drop (backlogStart items (left+1))) := by
  induction items generalizing left waiting with
  | nil => simp [addAll,ended,kept,run,hnone,countLeft]
  | cons item items ih =>
    rw [addAll_cons,backlogStart]
    cases hline : isLine item with
    | false =>
      have hadd : add ⟨some (left+1),false,d⟩ waiting item =
          (⟨some (left+1),false,d⟩,waiting++[item]) := by
        simp [add,hline]
      rw [hadd,ih]
      simp [add_comm 1]
    | true =>
      have hadd : add ⟨some (left+1),false,d⟩ waiting item =
          (⟨some left,false,d⟩,waiting++[item]) := by
        simp [add,hline]
      rw [hadd]
      cases left with
      | zero =>
        rw [addAll_last _ _ hnone]
        simp [add_comm 1]
      | succ left =>
        rw [ih]
        simp [add_comm 1]

theorem Bounded.addAll_eq (group left : Nat) :
    addAll ⟨if 0<group then some group else none,decide (group=0),left,none,false⟩ []
      items=items.take (backlogStart items group) ++
        kept ⟨left,none,false⟩ (items.drop (backlogStart items group)) := by
  cases group with
  | zero =>
    rw [if_neg (lt_irrefl 0),backlogStart]
    exact addAll_skipping [] items
  | succ group =>
    exact addAll_group [] items rfl group

end Bounded

theorem pushAdded_append (before : List Waiting) {after : List Waiting} (h : after≠[])
    (item : Waiting) :
    pushAdded (before++after) item=before++pushAdded after item ∧ pushAdded after item≠[] := by
  cases item with
  | skipped skipped =>
    simp only [pushAdded,pushSkipped,getLast?_append_of_ne_nil _ h]
    split
    · rw [dropLast_append_of_ne_nil h]
      simp
    · simp
  | line text kind | cut => simp [pushAdded]

theorem foldl_pushAdded_append {before after : List Waiting} (h : after≠[]) (items : List Waiting) :
    items.foldl pushAdded (before++after)=before++items.foldl pushAdded after := by
  induction items generalizing after with
  | nil => rfl
  | cons item items ih =>
    obtain ⟨hpush,hne⟩ := pushAdded_append before h item
    rw [foldl_cons,hpush,ih hne]
    rfl

theorem Adding.put_addAll (a : Adding) (item : Waiting) (items : List Waiting) :
    (a.put item).bounded.addAll (a.put item).waiting items =
      a.bounded.addAll a.waiting (a.held.toList++items) := by
  unfold put flushed
  cases a.held with
  | none | some before => rfl

theorem Adding.ended_merge (a : Adding) (items : List Waiting) :
    (items.foldl merge a).ended =
      a.bounded.addAll a.waiting (items.foldl pushAdded a.held.toList) := by
  induction items generalizing a with
  | nil =>
    rw [foldl_nil,foldl_nil,ended,flushed]
    cases a.held with
    | none | some before => rfl
  | cons item items ih =>
    rw [foldl_cons,foldl_cons,ih]
    have hput (hmerge : a.merge item=a.put item)
        (hpush : pushAdded a.held.toList item=a.held.toList++[item]) :
        (a.merge item).bounded.addAll (a.merge item).waiting
          (items.foldl pushAdded (a.merge item).held.toList) =
        a.bounded.addAll a.waiting (items.foldl pushAdded (pushAdded a.held.toList item)) := by
      rw [hmerge,put_addAll,hpush,foldl_pushAdded_append (by simp)]
      rfl
    cases item with
    | line text kind | cut => exact hput rfl rfl
    | skipped skipped =>
      cases hheld : a.held with
      | none => exact hheld ▸ hput (by simp [merge,hheld]) (by rw [hheld]; rfl)
      | some before =>
        cases before with
        | line text kind | cut => exact hheld ▸ hput (by simp [merge,hheld]) (by rw [hheld]; rfl)
        | skipped last => simp [merge,hheld,pushAdded,pushSkipped]

theorem Adding.ended_put (a : Adding) (waiting items : List Waiting) :
    (items.foldl merge (waiting.foldl put a)).ended =
      a.bounded.addAll a.waiting (items.foldl pushAdded (a.held.toList++waiting)) := by
  induction waiting generalizing a with
  | nil => rw [append_nil,foldl_nil,ended_merge]
  | cons item waiting ih =>
    rw [foldl_cons,ih,put_addAll,foldl_pushAdded_append (cons_ne_nil _ _)]
    rfl

theorem waitingLines_nil : waitingLines []=0 := rfl

theorem waitingLines_cons (item : Waiting) (items : List Waiting) :
    waitingLines (item::items)=waitingLines items+if isLine item then 1 else 0 := by
  unfold waitingLines
  rw [filter_cons]
  split <;> rfl

theorem waitingLines_append (items more : List Waiting) :
    waitingLines (items++more)=waitingLines items+waitingLines more := by
  simp [waitingLines]

theorem isLine_of_belongs {item : Waiting} (h : belongs item=true) : isLine item=false := by
  cases item with
  | line text kind => cases kind <;> first | rfl | cases h
  | skipped skipped | cut => rfl

theorem waitingLines_backlog (items : List Waiting) (group : Nat) :
    waitingLines (items.drop (backlogStart items group))=waitingLines items-group := by
  have hlast (items : List Waiting) :
      waitingLines (items.drop (items.takeWhile belongs).length)=waitingLines items := by
    induction items with
    | nil => rfl
    | cons item items ih =>
      cases hbelongs : belongs item with
      | true => simp [hbelongs,ih,waitingLines_cons,isLine_of_belongs]
      | false => simp [hbelongs]
  induction items generalizing group with
  | nil => cases group <;> simp [waitingLines]
  | cons item items ih =>
    cases group with
    | zero => rfl
    | succ left =>
      rw [backlogStart,waitingLines_cons]
      cases hline : isLine item with
      | false => simp [add_comm 1,ih]
      | true => cases left <;> simp [add_comm 1,ih,hlast]

theorem waitingLines_pushAdded (waiting items : List Waiting) :
    waitingLines (items.foldl pushAdded waiting)=waitingLines waiting+waitingLines items := by
  have hpush (waiting : List Waiting) (item : Waiting) :
      waitingLines (pushAdded waiting item)=waitingLines waiting+if isLine item then 1 else 0 := by
    have hback : waitingLines (waiting++[item])=waitingLines waiting +
        if isLine item then 1 else 0 := by
      rw [waitingLines_append,waitingLines_cons,waitingLines_nil,zero_add]
    cases item with
    | line text kind | cut => exact hback
    | skipped skipped =>
      simp only [pushAdded,pushSkipped]
      split
      next last hlast =>
        obtain ⟨init,rfl⟩ := getLast?_eq_some_iff.mp hlast
        simp [waitingLines,isLine]
      · exact hback
  induction items generalizing waiting with
  | nil => rfl
  | cons item items ih =>
    rw [foldl_cons,ih,hpush,waitingLines_cons]
    omega

theorem waitingLines_added (items : List SaidItem) (counted : Counted) :
    waitingLines (added graphemes items counted)=(items.filter isNewLine).length := by
  have hline (text : Text) (kind : LineKind) : waitingLines (lineAdded graphemes text kind) =
      if isLine (.line text kind) then 1 else 0 := by
    unfold lineAdded
    cases kind <;> dsimp only <;> split <;> rfl
  fun_induction added graphemes items counted <;>
    simp_all [waitingLines_nil,waitingLines_append,waitingLines_cons,isLine,isNewLine,filter_cons,
      add_comm]

theorem queue_eq (full last : Nat) (group : Option Nat)
    (waiting : List Waiting) (items : List SaidItem) {all : List Waiting} {start backlog : Nat}
    (hall : all=(added graphemes items .exactly).foldl pushAdded waiting)
    (hstart : start=backlogStart all (group.getD 0))
    (hbacklog : backlog=waitingLines (all.drop start)) :
    queue graphemes full last group waiting items=if backlog ≤ max full last then all else
      all.take start++kept ⟨backlog-max full last,none,false⟩ (all.drop start) := by
  have hlines : backlog=waitingLines waiting+(items.filter isNewLine).length-group.getD 0 := by
    rw [hbacklog,hstart,waitingLines_backlog,hall,waitingLines_pushAdded,waitingLines_added]
  simp only [queue,← hlines,ended_put,addAll_eq,Option.toList_none,nil_append,← hall,← hstart]

/-- The output queued in one pass is the output added and the backlog then brought down. -/
theorem queue_one_pass (graphemes : Graphemes) (full last : Nat) (group : Option Nat)
    (waiting : List Waiting) (items : List SaidItem) :
    queue graphemes full last group waiting items =
      plainQueue graphemes full last group waiting items := by
  rw [queue_eq graphemes full last group waiting items rfl rfl rfl,plainQueue]
  simp only [skipAllBut,kept,append_assoc]

end Verbatim.Flood
