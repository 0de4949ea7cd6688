import Verbatim.Framework.Machine
import Verbatim.Framework.Places
import Verbatim.Outpost.Intake

namespace Verbatim.Outpost

open Framework List Planned Key Option Prod Nat

section Admit

def Waiting.countsForThread (w : Waiting) : Bool :=
  match w.category with
  | .other => true
  | .focus => w.key.any isForeground
  | .uncounted | .exempt => false

def ofThread (raiser : Nat) (w : Waiting) : Bool := w.countsForThread && w.raiser=raiser

variable (focused : Option Object) (newer : List Waiting)

def pastLimits (w : Waiting) : Bool :=
  let crowded := decide (eventsPerThread≤newer.countP (ofThread w.raiser))
  match w.category with
  | .exempt | .uncounted => false
  | .focus =>
      decide (focusEventsPerBatch≤newer.countP fun other => other.category=.focus) &&
        (!w.key.any isForeground || crowded)
  | .other => crowded && !(focused.isSome && w.key.bind object=focused)

def countsOf : Counts :=
  newer.foldr (fun item counts => (admitOne focused counts item).1) ⟨0,fun _ => 0⟩

variable (focused : Option Object) (newer : List Waiting)

theorem countsOf_focusKept :
    (countsOf focused newer).focusKept=newer.countP fun other => other.category=.focus := by
  induction newer with
  | nil => rfl
  | cons w newer ih =>
    rw [countP_cons,← ih]
    change (admitOne focused (countsOf focused newer) w).1.focusKept=_
    rcases w with ⟨key,category,raiser,marker,entry⟩
    cases category <;> simp [admitOne,Counts.count]
    split <;> rfl

theorem countsOf_perThread (thread : Nat) :
    (countsOf focused newer).perThread thread=newer.countP (ofThread thread) := by
  induction newer with
  | nil => rfl
  | cons w newer ih =>
    rw [countP_cons,← ih]
    change (admitOne focused (countsOf focused newer) w).1.perThread thread=_
    rcases w with ⟨key,category,raiser,marker,entry⟩
    cases category <;> simp only [admitOne,Counts.count,ofThread,Waiting.countsForThread] <;> grind

theorem admitOne_kept (w : Waiting) :
    (admitOne focused (countsOf focused newer) w).2=!pastLimits focused newer w := by
  have hfocus := countsOf_focusKept focused newer
  have hthread := countsOf_perThread focused newer w.raiser
  rcases w with ⟨key,category,raiser,marker,entry⟩
  cases category <;> simp only [admitOne,Counts.count,pastLimits,hfocus,hthread] <;> grind

theorem keepGo_append (counts : Counts) (xs ys : List Waiting) :
    keepGo focused counts (xs++ys)=keepGo focused counts xs ++
      keepGo focused
        (xs.foldl (fun counts item => (admitOne focused counts item).1) counts) ys := by
  induction xs generalizing counts with
  | nil => rfl
  | cons x xs ih => simp [keepGo,ih]

theorem admitWaiting_cons (w : Waiting) (newer : List Waiting) :
    admitWaiting (w::newer) focused =
      if pastLimits focused newer w then admitWaiting newer focused
      else w::admitWaiting newer focused := by
  have hkeep : (keepGo focused ⟨0,fun _ => 0⟩ (w::newer).reverse).reverse =
      (!pastLimits focused newer w)::(keepGo focused ⟨0,fun _ => 0⟩ newer.reverse).reverse := by
    rw [reverse_cons,keepGo_append,foldl_reverse]
    simp only [keepGo,reverse_append,reverse_cons,reverse_nil,nil_append,
      singleton_append,← admitOne_kept]
    rfl
  unfold admitWaiting
  rw [hkeep]
  cases pastLimits focused newer w <;> simp

/-- What NVDA's limiter keeps, judged by what is newer: the newest 4 focuses and foreground changes,
and of each thread the newest 10 foreground changes and other events and those of the focused
object. -/
def LimiterKeeps (w : Waiting) : Prop :=
  match w.category with
  | .uncounted | .exempt => True
  | .focus => newer.countP (fun other => other.category=.focus)<4 ∨
      w.key.any isForeground=true ∧ newer.countP (ofThread w.raiser)<10
  | .other => newer.countP (ofThread w.raiser)<10 ∨
      ∃ object, focused=some object ∧ w.key.bind Key.object=some object

theorem limiterKeeps_iff (w : Waiting) :
    LimiterKeeps focused newer w ↔ pastLimits focused newer w=false := by
  have hfocus : focusEventsPerBatch=4 := rfl
  have hthread : eventsPerThread=10 := rfl
  unfold LimiterKeeps pastLimits
  cases w.category with
  | uncounted | exempt => simp
  | focus => grind
  | other => cases focused <;> grind

/-- The entries kept are those NVDA's limiter keeps, in their order. -/
theorem admitWaiting_limits (waiting : List Waiting) (focused : Option Object) :
    ∃ kept : List Nat, kept.Pairwise (·<·) ∧
      (∀ i, i∈kept ↔ ∃ w, waiting[i]?=some w ∧ LimiterKeeps focused (waiting.drop (i+1)) w) ∧
      admitWaiting waiting focused=kept.filterMap (waiting[·]?) := by
  induction waiting with
  | nil => exact ⟨[],.nil,by simp,rfl⟩
  | cons w newer ih =>
    obtain ⟨kept,hordered,hkept,heq⟩ := ih
    have hlater : (kept.map (·+1)).Pairwise (·<·) := by
      rw [pairwise_map]
      exact hordered.imp succ_lt_succ
    have hsame : (kept.map (·+1)).filterMap ((w::newer)[·]?)=admitWaiting newer focused := by
      rw [heq,filterMap_map]
      rfl
    have hmem : ∀ i, i+1∈kept.map (·+1) ↔ ∃ x, newer[i]?=some x ∧
        LimiterKeeps focused (newer.drop (i+1)) x := by
      simpa using hkept
    rw [admitWaiting_cons]
    split
    · next hpast =>
      refine ⟨kept.map (·+1),hlater,fun i => ?_,hsame.symm⟩
      cases i with
      | zero => simp [limiterKeeps_iff,hpast]
      | succ i => exact hmem i
    · next hpast =>
      refine ⟨0::kept.map (·+1),pairwise_cons.mpr ⟨by simp,hlater⟩,fun i => ?_,by rw [← hsame]; rfl⟩
      cases i with
      | zero => simp [limiterKeeps_iff,hpast]
      | succ i => simpa using hmem i

@[simp]
theorem admitWaiting_nil : admitWaiting [] focused=[] := rfl

theorem admitWaiting_sublist (waiting : List Waiting) :
    (admitWaiting waiting focused).Sublist waiting := by
  induction waiting with
  | nil => exact List.Sublist.refl _
  | cons w newer ih =>
    rw [admitWaiting_cons]
    split
    · exact ih.cons w
    · exact ih.cons_cons w

theorem admitWaiting_perm (waiting : List Waiting) :
    ∃ lost, waiting.Perm (admitWaiting waiting focused++lost) ∧ ∀ w∈lost, ∃ older newer,
      waiting=older++w::newer ∧ pastLimits focused newer w=true := by
  induction waiting with
  | nil => exact ⟨[],List.Perm.refl _,by simp⟩
  | cons w newer ih =>
    obtain ⟨lost,hperm,hlost⟩ := ih
    have hlost : ∀ x∈lost, ∃ older rest, w::newer=older++x::rest ∧
        pastLimits focused rest x=true := by
      intro x hx
      obtain ⟨older,rest,rfl,hpast⟩ := hlost x hx
      exact ⟨w::older,rest,rfl,hpast⟩
    rw [admitWaiting_cons]
    cases hw : pastLimits focused newer w with
    | true =>
      refine ⟨w::lost,?_,?_⟩
      · exact (hperm.cons w).trans perm_middle.symm
      rintro x (_ | ⟨_,hx⟩)
      · exact ⟨[],newer,rfl,hw⟩
      · exact hlost x hx
    | false => exact ⟨lost,hperm.cons w,hlost⟩

theorem admitWaiting_concat {last : Waiting} (hlast : last.category=.exempt)
    (waiting : List Waiting) :
    ∃ kept, admitWaiting (waiting++[last]) focused=kept++[last] ∧ kept.Sublist waiting := by
  induction waiting with
  | nil =>
    refine ⟨[],?_,List.Sublist.refl _⟩
    rw [nil_append,admitWaiting_cons]
    simp [pastLimits,hlast]
  | cons w waiting ih =>
    obtain ⟨kept,heq,hsub⟩ := ih
    rw [cons_append,admitWaiting_cons,heq]
    split
    · exact ⟨kept,rfl,hsub.cons w⟩
    · exact ⟨w::kept,rfl,hsub.cons_cons w⟩

end Admit

section Runs

variable (kept : List Waiting)

def runAt (index : Nat) : Bool := (kept[index]?).any fun w => inARun w.key

def triedRuns : List (Nat × List Nat) :=
  (runsOf kept).map fun run => (run.1,inRaisedOrder kept run.2)

theorem flush_flatMap (runs : Runs) :
    runs.flush.done.flatMap snd=runs.done.flatMap snd++runs.run ∧ runs.flush.run=[] := by
  unfold Runs.flush
  cases hlast : runs.run.getLast? with
  | none =>
    rw [getLast?_eq_none_iff] at hlast
    simp [hlast]
  | some last => simp

theorem flush_named {runs : Runs} (h : ∀ run∈runs.done, run.1∈run.2) :
    ∀ run∈runs.flush.done, run.1∈run.2 := by
  unfold Runs.flush
  cases hlast : runs.run.getLast? with
  | none => exact h
  | some last =>
    intro run hrun
    rcases mem_append.mp hrun with hrun | hrun
    · exact h run hrun
    · obtain rfl := mem_singleton.mp hrun
      exact mem_of_getLast? hlast

/-- The runs hold every entry that is tried in one, in the order they wait, and each run is named
by an entry of its own. -/
theorem runsOf_spec :
    (runsOf kept).flatMap snd=(range kept.length).filter (runAt kept) ∧
      ∀ run∈runsOf kept, run.1∈run.2 := by
  have hloop := foldl_zipIdx_invariant (f := Runs.turn) (s := ⟨[],[]⟩)
    (fun j runs => runs.done.flatMap snd++runs.run=(range j).filter (runAt kept) ∧
      ∀ run∈runs.done, run.1∈run.2) kept ⟨rfl,by simp⟩ ?_
  · obtain ⟨hflat,hnamed⟩ := hloop
    exact ⟨(flush_flatMap _).1.trans hflat,flush_named hnamed⟩
  rintro j w runs hw ⟨hflat,hnamed⟩
  have hrun : runAt kept j=inARun w.key := by simp [runAt,hw]
  rw [range_succ,filter_append,← hflat]
  unfold Runs.turn
  cases hin : inARun w.key with
  | true => simpa [hrun,hin] using hnamed
  | false =>
    rw [hin] at hrun
    split
    · contradiction
    split
    · obtain ⟨hflush,hnil⟩ := flush_flatMap runs
      rw [hflush,hnil]
      exact ⟨by simp [hrun],flush_named hnamed⟩
    · exact ⟨by simp [hrun],hnamed⟩

theorem inRaisedOrder_perm (run : List Nat) : (inRaisedOrder kept run).Perm run := by
  unfold inRaisedOrder
  split
  · exact List.Perm.refl _
  split
  · exact List.Perm.refl _
  · exact mergeSort_perm _ _

theorem triedRuns_perm :
    ((triedRuns kept).flatMap snd).Perm ((range kept.length).filter (runAt kept)) := by
  rw [← (runsOf_spec kept).1,triedRuns,flatMap_map]
  exact List.Perm.flatMap_left _ fun run _ => inRaisedOrder_perm kept run.2

theorem triedRuns_named {run : Nat × List Nat} (hrun : run∈triedRuns kept) : run.1∈run.2 := by
  obtain ⟨run,hmem,rfl⟩ := mem_map.mp hrun
  exact (inRaisedOrder_perm kept run.2).mem_iff.mpr ((runsOf_spec kept).2 run hmem)

variable {index : Nat}

theorem mem_triedRuns {run : Nat × List Nat} (hrun : run∈triedRuns kept)
    (hindex : index∈run.2) : index<kept.length ∧ runAt kept index=true := by
  have hmem := (triedRuns_perm kept).mem_iff.mp (mem_flatMap.mpr ⟨run,hrun,hindex⟩)
  simpa using hmem

theorem triedRuns_apart : (triedRuns kept).Pairwise (fun a b => List.Disjoint a.2 b.2) ∧
    ∀ run∈triedRuns kept, run.2.Nodup := by
  have hnodup : ((triedRuns kept).flatMap snd).Nodup :=
    (triedRuns_perm kept).nodup_iff.mpr (nodup_range.filter _)
  exact (nodup_flatMap.mp hnodup).symm

theorem triedRuns_names : ((triedRuns kept).map fst).Nodup := by
  refine pairwise_map.mpr ((triedRuns_apart kept).1.imp_of_mem ?_)
  intro a b ha hb hdisjoint heq
  exact hdisjoint (triedRuns_named kept ha) (heq ▸ triedRuns_named kept hb)

theorem triedRuns_unique {a b : Nat × List Nat} (ha : a∈triedRuns kept)
    (hb : b∈triedRuns kept) (hia : index∈a.2) (hib : index∈b.2) : a=b := by
  by_contra hne
  have : Std.Symm fun a b : Nat × List Nat => List.Disjoint a.2 b.2 :=
    ⟨fun _ _ hdisjoint _ hb ha => hdisjoint ha hb⟩
  exact (triedRuns_apart kept).1.forall ha hb hne hia hib

end Runs

section Loop

variable (kept : List Waiting) (msaaMenu : Option Nat)

def entryAt (index : Nat) : List Entry := (kept[index]?).elim [] fun w => [w.entry]

def menuAt (index : Nat) : Bool := (kept[index]?).any fun w => w.key.any isMenu

/-- The entries planned where the entry at `index` is reached. -/
def plannedAt (index : Nat) : List Nat :=
  if runAt kept index then
    ((triedRuns kept).find? fun run => run.1=index).elim [] (fun run => run.2.reverse)
  else if menuAt kept index then [] else [index]

def deferredAt (index : Nat) : List Nat :=
  if menuAt kept index && some index=msaaMenu then [index] else []

/-- Whether the loop, at `reached`, has yet to take the entry at `index`. -/
def Untaken (reached index : Nat) : Prop :=
  if runAt kept index then ∃ run∈triedRuns kept, index∈run.2 ∧ reached≤run.1
  else reached ≤ index

variable {key : Option Key}

theorem not_menu_of_run (h : inARun key=true) : key.any isMenu=false := by
  rcases key with _ | (_ | _) <;> simp_all [inARun,isMenu]

theorem not_menu_of_uiaFocus (h : key.any isUiaFocus=true) : key.any isMenu=false := by
  rcases key with _ | (_ | _) <;> simp_all [isUiaFocus,isMenu]

theorem isSome_of_run (h : inARun key=true) : key.isSome=true := by
  cases key with
  | none => cases h
  | some key => rfl

theorem takeEntries_spec (indexes : List Nat) (hnodup : indexes.Nodup)
    (entries : List (Option Entry))
    (hfull : ∀ i∈indexes, entries[i]?=kept[i]?.map fun w => some w.entry) :
    (takeEntries entries indexes).2=indexes.flatMap (entryAt kept) ∧
      ∀ i∉indexes, (takeEntries entries indexes).1[i]?=entries[i]? := by
  induction indexes generalizing entries with
  | nil => exact ⟨rfl,fun _ _ => rfl⟩
  | cons index indexes ih =>
    obtain ⟨hfresh,hnodup⟩ := nodup_cons.mp hnodup
    have hothers : ∀ i, i≠index → (takeEntry entries index).1[i]?=entries[i]? :=
      fun i hi => getElem?_set_ne hi.symm
    obtain ⟨htaken,hkept⟩ := ih hnodup (takeEntry entries index).1 (fun i hi => by
      rw [hothers i fun heq => hfresh (heq ▸ hi)]
      exact hfull i (mem_cons_of_mem _ hi))
    have hfirst : (takeEntry entries index).2.toList=entryAt kept index := by
      simp only [takeEntry,hfull index (by simp),entryAt]
      cases kept[index]? <;> rfl
    refine ⟨?_,?_⟩
    · rw [flatMap_cons,← hfirst,← htaken]
      rfl
    intro i hi
    obtain ⟨hne,hnot⟩ := not_or.mp fun h => hi (mem_cons.mpr h)
    exact (hkept i hnot).trans (hothers i hne)

variable {reached : Nat}

theorem untaken_of_succ (h : Untaken kept (reached+1) index) : Untaken kept reached index := by
  unfold Untaken at h ⊢
  cases hrun : runAt kept index with
  | true =>
    rw [hrun,if_pos rfl] at h
    obtain ⟨run,hmem,hindex,hle⟩ := h
    exact ⟨run,hmem,hindex,le_of_succ_le hle⟩
  | false =>
    rw [hrun,if_neg (by simp)] at h
    exact le_of_succ_le h

/-- The batch's planning once the loop has reached `reached`. -/
structure Reached (reached : Nat) (p : Planning) : Prop where
  untaken : ∀ i, Untaken kept reached i → p.entries[i]?=kept[i]?.map (fun w => some w.entry)
  planned : p.planned.flatMap entries =
    ((List.range reached).flatMap (plannedAt kept)).flatMap (entryAt kept)
  deferred : p.deferred =
    ((List.range reached).flatMap (deferredAt kept msaaMenu)).flatMap (entryAt kept)
  keyed : ∀ planned∈p.planned, ∀ entry∈planned.entries, planned=.run entry ∨
    ∃ w∈kept, w.entry=entry ∧ w.key.isSome=true

theorem mem_entryAt {entry : Entry} (h : entry∈entryAt kept index) :
    ∃ w, kept[index]?=some w ∧ w.entry=entry := by
  unfold entryAt at h
  cases hw : kept[index]? with
  | none => simp [hw] at h
  | some w =>
    rw [hw] at h
    exact ⟨w,rfl,(mem_singleton.mp h).symm⟩

theorem reached_run {w : Waiting} {p : Planning} (hw : kept[reached]?=some w)
    (hrun : inARun w.key=true) (h : Reached kept msaaMenu reached p) :
    Reached kept msaaMenu (reached+1) (p.turn (triedRuns kept) msaaMenu (w,reached)) := by
  have hat : runAt kept reached=true := by simp [runAt,hw,hrun]
  have hmenu : menuAt kept reached=false := by simp [menuAt,hw,not_menu_of_run hrun]
  have hdeferred : deferredAt kept msaaMenu reached=[] := by simp [deferredAt,hmenu]
  unfold Planning.turn
  simp only [hrun,if_true]
  cases hfind : (triedRuns kept).find? (fun run => run.1=reached) with
  | none =>
    have hplanned : plannedAt kept reached=[] := by simp [plannedAt,hat,hfind]
    refine ⟨fun i hi => h.untaken i (untaken_of_succ kept hi),?_,?_,h.keyed⟩
    · simpa [range_succ,hplanned] using h.planned
    · simpa [range_succ,hdeferred] using h.deferred
  | some run =>
    have hmem := mem_of_find?_eq_some hfind
    have hname : run.1=reached := by simpa using find?_some hfind
    have hplanned : plannedAt kept reached=run.2.reverse := by simp [plannedAt,hat,hfind]
    obtain ⟨htaken,hothers⟩ := takeEntries_spec kept run.2.reverse
      (nodup_reverse.mpr ((triedRuns_apart kept).2 run hmem)) p.entries
      (fun i hi => by
        have hi := mem_reverse.mp hi
        refine h.untaken i ?_
        rw [Untaken,if_pos (mem_triedRuns kept hmem hi).2]
        exact ⟨run,hmem,hi,hname.ge⟩)
    refine ⟨?_,?_,?_,?_⟩
    · intro i hi
      refine (hothers i ?_).trans (h.untaken i (untaken_of_succ kept hi))
      intro hir
      have hir := mem_reverse.mp hir
      rw [Untaken,if_pos (mem_triedRuns kept hmem hir).2] at hi
      obtain ⟨other,hother,hio,hle⟩ := hi
      obtain rfl := triedRuns_unique kept hmem hother hir hio
      omega
    · simp only [flatMap_append,range_succ,h.planned,flatMap_singleton,entries,htaken,hplanned]
    · simpa [range_succ,hdeferred] using h.deferred
    · intro planned hmember entry hentry
      rcases mem_append.mp hmember with hmember | hmember
      · exact h.keyed planned hmember entry hentry
      obtain rfl := mem_singleton.mp hmember
      rw [entries,htaken] at hentry
      obtain ⟨i,hi,hentry⟩ := mem_flatMap.mp hentry
      obtain ⟨other,hother,rfl⟩ := mem_entryAt kept hentry
      have hirun := (mem_triedRuns kept hmem (mem_reverse.mp hi)).2
      rw [runAt,hother] at hirun
      exact .inr ⟨other,mem_of_getElem? hother,rfl,isSome_of_run hirun⟩

theorem reached_plain {w : Waiting} {p : Planning} (hw : kept[reached]?=some w)
    (hrun : inARun w.key=false) (h : Reached kept msaaMenu reached p) :
    Reached kept msaaMenu (reached+1) (p.turn (triedRuns kept) msaaMenu (w,reached)) := by
  have hat : runAt kept reached=false := by simp [runAt,hw,hrun]
  have hentry : entryAt kept reached=[w.entry] := by simp [entryAt,hw]
  have hslot : p.entries[reached]?=some (some w.entry) := by
    rw [h.untaken reached (by simp [Untaken,hat]),hw]
    rfl
  have huntaken : ∀ i, Untaken kept (reached+1) i →
      (takeEntry p.entries reached).1[i]?=kept[i]?.map fun w => some w.entry := by
    intro i hi
    have hne : reached≠i := by
      rintro rfl
      simp only [Untaken,hat] at hi
      exact not_succ_le_self _ hi
    rw [takeEntry,getElem?_set_ne hne]
    exact h.untaken i (untaken_of_succ kept hi)
  have htaken : takeEntry p.entries reached=(p.entries.set reached none,some w.entry) := by
    rw [takeEntry,hslot]
    rfl
  have hmenuAt : menuAt kept reached=w.key.any isMenu := by simp [menuAt,hw]
  have hkeyed : ∀ last : Planned, (∀ entry∈last.entries, last=.run entry ∨
      ∃ w∈kept, w.entry=entry ∧ w.key.isSome=true) → ∀ planned∈p.planned++[last],
      ∀ entry∈planned.entries, planned=.run entry ∨
        ∃ w∈kept, w.entry=entry ∧ w.key.isSome=true := by
    intro last hlast planned hmember entry hentry
    rcases mem_append.mp hmember with hmember | hmember
    · exact h.keyed planned hmember entry hentry
    · obtain rfl := mem_singleton.mp hmember
      exact hlast entry hentry
  unfold Planning.turn
  simp only [hrun,htaken]
  cases hfocus : w.key.any isUiaFocus with
  | true =>
    have hmenu : menuAt kept reached=false := hmenuAt.trans (not_menu_of_uiaFocus hfocus)
    refine ⟨huntaken,?_,?_,hkeyed _ ?_⟩
    · simp [range_succ,h.planned,plannedAt,hat,hmenu,hentry,entries]
    · simpa [range_succ,deferredAt,hmenu] using h.deferred
    intro entry hmember
    refine .inr ⟨w,mem_of_getElem? hw,(mem_singleton.mp hmember).symm,?_⟩
    exact isSome_of_any hfocus
  | false =>
    cases hmenu : w.key.any isMenu with
    | false =>
      rw [hmenu] at hmenuAt
      refine ⟨huntaken,?_,?_,hkeyed _ ?_⟩
      · simp [range_succ,h.planned,plannedAt,hat,hmenuAt,hentry,entries]
      · simpa [range_succ,deferredAt,hmenuAt] using h.deferred
      · intro entry hmember
        exact .inl (congrArg _ (mem_singleton.mp hmember).symm)
    | true =>
      rw [hmenu] at hmenuAt
      by_cases hnewest : some reached=msaaMenu
      · simp only [hnewest]
        refine ⟨huntaken,?_,?_,h.keyed⟩
        · simpa [range_succ,plannedAt,hat,hmenuAt] using h.planned
        · simp [range_succ,h.deferred,deferredAt,hmenuAt,hnewest,hentry]
      · simp only [hnewest]
        refine ⟨huntaken,?_,?_,h.keyed⟩
        · simpa [range_succ,plannedAt,hat,hmenuAt] using h.planned
        · simpa [range_succ,deferredAt,hmenuAt,hnewest] using h.deferred

end Loop

section Plan

theorem lastIdx?_split {isIt : Waiting → Bool} {later : List Waiting} {i : Nat}
    (h : lastIdx? isIt later=some i) :
    ∃ before x after, later=before++x::after ∧ before.length=i ∧ isIt x=true := by
  obtain ⟨back,hback,rfl⟩ := map_eq_some_iff.mp h
  obtain ⟨before,x,after,hsplit,rfl,hx,_⟩ := findIdx?_split hback
  have hlater := reverse_eq_iff.mp hsplit
  refine ⟨after.reverse,x,before.reverse,by simp [hlater],?_,hx⟩
  simp only [hlater,length_reverse,length_append,length_cons]
  omega

theorem lastIdx?_last {isIt : Waiting → Bool} {before after : List Waiting} {x : Waiting} {i : Nat}
    (h : lastIdx? isIt (before++x::after)=some i) (hx : isIt x=true)
    (hne : before.length≠i) : ∃ y∈after, isIt y=true := by
  by_contra hnone
  have hafter : ∀ y∈after.reverse, isIt y=false := fun y hy => by
    simpa using fun hyes => hnone ⟨y,mem_reverse.mp hy,hyes⟩
  rw [lastIdx?,reverse_append,reverse_cons,append_assoc,singleton_append,
    findIdx?_of_split hx hafter] at h
  simp at h
  omega

variable (kept : List Waiting)

def newestMenu : Option Nat := lastIdx? (fun item => item.key.any isMenu) kept

def planned (first : List Waiting) : Planning :=
  first.zipIdx.foldl (Planning.turn (triedRuns kept) (newestMenu kept))
    ⟨kept.map fun item => some item.entry,[],[]⟩

theorem planned_reached {first : List Waiting} (hfirst : first.IsPrefix kept) :
    Reached kept (newestMenu kept) first.length (planned kept first) := by
  obtain ⟨rest,rfl⟩ := hfirst
  refine foldl_zipIdx_invariant (Reached _ _) first ⟨?_,rfl,rfl,by simp⟩ ?_
  · intro i _
    rw [getElem?_map]
  intro j w p hw h
  have hw : (first++rest)[j]?=some w := by
    rw [getElem?_append_left (List.getElem?_eq_some_iff.mp hw).1]
    exact hw
  cases hrun : inARun w.key with
  | true => exact reached_run _ _ hw hrun h
  | false => exact reached_plain _ _ hw hrun h

def olderMenuAt (index : Nat) : Bool := menuAt kept index && some index≠newestMenu kept

/-- Every entry is tried in a run, planned alone, put off to the end or an older menu opening. -/
theorem indexes_perm :
    (range kept.length).Perm ((range kept.length).flatMap (plannedAt kept) ++
      ((range kept.length).flatMap (deferredAt kept (newestMenu kept)) ++
        (range kept.length).filter (olderMenuAt kept))) := by
  set indexes := range kept.length
  let plain := fun i => !runAt kept i && !menuAt kept i
  have hrunMenu : ∀ i, runAt kept i=true → menuAt kept i=false := by
    intro i hrun
    unfold runAt at hrun
    unfold menuAt
    cases hw : kept[i]? with
    | none => rfl
    | some w =>
      rw [hw] at hrun
      exact not_menu_of_run hrun
  -- What is reached in a run is what its name gives, in another order.
  have hplanned : (indexes.flatMap (plannedAt kept)).Perm
      (indexes.filter (runAt kept)++indexes.filter plain) := by
    have hat : ∀ i, (plannedAt kept i).Perm
        (((triedRuns kept).find? fun run => run.1=i).elim [] snd ++
          if plain i then [i] else []) := by
      intro i
      cases hfind : (triedRuns kept).find? (fun run => run.1=i) with
      | none =>
        cases hrun : runAt kept i <;> cases hmenu : menuAt kept i <;>
          simp [plannedAt,hrun,hmenu,hfind,plain]
      | some run =>
        have hmem := mem_of_find?_eq_some hfind
        have hname : run.1=i := by simpa using find?_some hfind
        have hrun := (mem_triedRuns kept hmem (triedRuns_named kept hmem)).2
        rw [hname] at hrun
        simp [plannedAt,hrun,hfind,plain,reverse_perm]
    refine (List.Perm.flatMap_left indexes fun i _ => hat i).trans ?_
    refine (flatMap_append_perm _ _ _).symm.trans ?_
    rw [flatMap_ite_singleton]
    refine List.Perm.append_right _ ((flatMap_find_perm nodup_range (triedRuns_names kept)
      ?_).trans (triedRuns_perm kept))
    intro run hrun
    exact mem_range.mpr (mem_triedRuns kept hrun (triedRuns_named kept hrun)).1
  have hsplit : ∀ i, [i]=((if runAt kept i then [i] else [])++(if plain i then [i] else [])) ++
      (deferredAt kept (newestMenu kept) i++if olderMenuAt kept i then [i] else []) := by
    intro i
    cases hrun : runAt kept i with
    | true => simp [plain,deferredAt,olderMenuAt,hrun,hrunMenu i hrun]
    | false =>
      cases hmenu : menuAt kept i with
      | false => simp [plain,deferredAt,olderMenuAt,hrun,hmenu]
      | true =>
        by_cases hnewest : some i=newestMenu kept <;>
          simp [plain,deferredAt,olderMenuAt,hrun,hmenu,hnewest]
  have hall : indexes=indexes.flatMap fun i =>
      ((if runAt kept i then [i] else [])++(if plain i then [i] else [])) ++
        (deferredAt kept (newestMenu kept) i++if olderMenuAt kept i then [i] else []) := by
    rw [← funext hsplit,flatMap_singleton']
  have hparts := flatMap_append_perm indexes
    (fun i => (if runAt kept i then [i] else [])++(if plain i then [i] else []))
    fun i => deferredAt kept (newestMenu kept) i++if olderMenuAt kept i then [i] else []
  rw [← hall] at hparts
  refine hparts.symm.trans (List.Perm.append ?_ ?_)
  · refine (flatMap_append_perm _ _ _).symm.trans ?_
    rw [flatMap_ite_singleton,flatMap_ite_singleton]
    exact hplanned.symm
  · refine (flatMap_append_perm _ _ _).symm.trans ?_
    rw [flatMap_ite_singleton]

/-- The batch once the loop has ended: the menu opening put off goes last, but for an idle query
that ends the batch. -/
def Planning.ended (p : Planning) : List Planned :=
  if p.planned.getLast?.any isBarrier then
    p.planned.dropLast++p.deferred.map .menu++p.planned.getLast?.toList
  else p.planned++p.deferred.map .menu

variable (waiting : List Waiting) (focused : Option Object)

theorem plan_eq :
    plan waiting focused =
      (planned (admitWaiting waiting focused) (admitWaiting waiting focused)).ended := rfl

theorem ended_perm (p : Planning) : p.ended.Perm (p.planned++p.deferred.map .menu) := by
  unfold Planning.ended
  split
  next hbarrier =>
    obtain ⟨last,hlast,_⟩ := (any_eq_true _ _).mp hbarrier
    have hsplit := dropLast_append_getLast? last hlast
    rw [hlast,toList_some,append_assoc]
    conv_rhs => rw [← hsplit]
    rw [append_assoc]
    exact List.Perm.append_left _ perm_append_comm
  · exact List.Perm.refl _

theorem menus_entries (entries : List Entry) :
    (entries.map Planned.menu).flatMap Planned.entries=entries := by
  simp [flatMap_map,Planned.entries]

theorem flatMap_entryAt : (range kept.length).flatMap (entryAt kept)=kept.map (·.entry) := by
  rw [map_eq_flatMap]
  exact range_flatMap_getElem? _ kept

/-- A batch plans every entry the limits keep but the older menu openings. -/
theorem plan_perm : ∃ lost, ((admitWaiting waiting focused).map (·.entry)).Perm
        ((plan waiting focused).flatMap entries++lost) ∧
      ∀ entry∈lost, ∃ older w newer, admitWaiting waiting focused=older++w::newer ∧
        w.entry=entry ∧ w.key.any isMenu=true ∧
        ∃ newest∈newer, newest.key.any isMenu=true := by
  rw [plan_eq]
  generalize admitWaiting waiting focused=kept
  have hreached := planned_reached kept (prefix_refl kept)
  have hplan := List.Perm.flatMap_right entries (ended_perm (planned kept kept))
  rw [flatMap_append,menus_entries,hreached.planned,hreached.deferred] at hplan
  have hindexes := List.Perm.flatMap_right (entryAt kept) (indexes_perm kept)
  rw [flatMap_entryAt,flatMap_append,flatMap_append,← append_assoc] at hindexes
  refine ⟨_,hindexes.trans (List.Perm.append_right _ hplan.symm),?_⟩
  intro entry hentry
  obtain ⟨i,hi,hentry⟩ := mem_flatMap.mp hentry
  obtain ⟨w,hw,rfl⟩ := mem_entryAt kept hentry
  obtain ⟨hmenu,hnewest⟩ : menuAt kept i=true ∧ some i≠newestMenu kept := by
    simpa [olderMenuAt] using (mem_filter.mp hi).2
  rw [menuAt,hw] at hmenu
  obtain ⟨older,newer,rfl,rfl⟩ : ∃ older newer, kept=older++w::newer ∧ older.length=i := by
    obtain ⟨hlt,rfl⟩ := List.getElem?_eq_some_iff.mp hw
    exact ⟨kept.take i,kept.drop (i+1),by simp,by simp; omega⟩
  refine ⟨older,w,newer,rfl,rfl,hmenu,?_⟩
  cases hlast : newestMenu (older++w::newer) with
  | none =>
    have hnone := findIdx?_eq_none_iff.mp (map_eq_none_iff.mp hlast) w (by simp)
    rw [any_some] at hmenu
    rw [hmenu] at hnone
    cases hnone
  | some j =>
    rw [hlast] at hnewest
    exact lastIdx?_last hlast hmenu fun heq => hnewest (congrArg some heq)

theorem plan_keyed {waiting : List Waiting} {focused : Option Object} {p : Planned}
    (hp : p∈plan waiting focused) {entry : Entry} (hentry : entry∈p.entries) :
    p=.run entry ∨ ∃ w∈waiting, w.entry=entry ∧ w.key.isSome=true := by
  have hsub := (admitWaiting_sublist focused waiting).subset
  rw [plan_eq] at hp
  revert hp hsub
  generalize admitWaiting waiting focused=kept
  intro hp hsub
  have hreached := planned_reached kept (prefix_refl kept)
  rcases mem_append.mp ((ended_perm _).mem_iff.mp hp) with hp | hp
  · refine (hreached.keyed p hp entry hentry).imp_right ?_
    rintro ⟨w,hw,heq,hkey⟩
    exact ⟨w,hsub hw,heq,hkey⟩
  obtain ⟨menu,hmenu,rfl⟩ := mem_map.mp hp
  obtain rfl := mem_singleton.mp hentry
  rw [hreached.deferred] at hmenu
  obtain ⟨i,hi,hmenu⟩ := mem_flatMap.mp hmenu
  obtain ⟨w,hw,rfl⟩ := mem_entryAt kept hmenu
  obtain ⟨j,_,hj⟩ := mem_flatMap.mp hi
  unfold deferredAt at hj
  split at hj
  next hmenu =>
    obtain rfl := mem_singleton.mp hj
    have hmenu := (Bool.and_eq_true _ _ ▸ hmenu).1
    rw [menuAt,hw] at hmenu
    exact .inr ⟨w,hsub (mem_of_getElem? hw),rfl,isSome_of_any hmenu⟩
  · cases hj

/-- An idle query at the end of what waits ends the batch, behind entries that waited before it. -/
theorem plan_concat {last : Waiting} (hbarrier : last.isBarrier=true)
    (hcategory : last.category=.exempt) (hkey : last.key=none) :
    ∃ init, plan (waiting++[last]) focused=init++[.run last.entry] ∧
      ∀ p∈init, ∀ entry∈p.entries, ∃ w∈waiting, w.entry=entry := by
  obtain ⟨kept,hkept,hsub⟩ := admitWaiting_concat focused hcategory waiting
  have hreached := planned_reached (kept++[last]) (prefix_append kept [last])
  have hturn : planned (kept++[last]) (kept++[last]) =
      (planned (kept++[last]) kept).turn (triedRuns (kept++[last]))
        (newestMenu (kept++[last])) (last,kept.length) := by
    simp [planned,zipIdx_append,foldl_append]
  have hslot := hreached.untaken kept.length (by simp [Untaken,runAt,hkey,inARun])
  have hplanned : (planned (kept++[last]) (kept++[last])).planned =
      (planned (kept++[last]) kept).planned++[.run last.entry] := by
    rw [hturn]
    simp [Planning.turn,takeEntry,hkey,inARun,hslot]
  obtain ⟨init,hplan⟩ : ∃ init, plan (waiting++[last]) focused=init++[.run last.entry] := by
    rw [plan_eq,hkept]
    unfold Planning.ended
    rw [hplanned,if_pos (by simpa [isBarrier,Waiting.isBarrier] using hbarrier)]
    simp only [dropLast_concat,getLast?_concat,toList_some]
    exact ⟨_,rfl⟩
  refine ⟨init,hplan,?_⟩
  -- The query is planned once, so what is planned ahead of it is what was kept ahead of it.
  obtain ⟨lost,hperm,_⟩ := plan_perm (waiting++[last]) focused
  rw [hkept,hplan,map_append,flatMap_append,append_assoc] at hperm
  have hrest : (kept.map (·.entry)).Perm (init.flatMap entries++lost) := by
    have hmiddle : (init.flatMap entries++([run last.entry].flatMap entries++lost)).Perm
        (last.entry::(init.flatMap entries++lost)) := perm_middle
    have hend : (kept.map (·.entry)++[last].map (·.entry)).Perm
        (last.entry::kept.map (·.entry)) := perm_append_singleton _ _
    exact List.Perm.cons_inv (hend.symm.trans (hperm.trans hmiddle))
  intro p hp entry hentry
  have hmem := hrest.mem_iff.mpr (mem_append_left _ (mem_flatMap.mpr ⟨p,hp,hentry⟩))
  obtain ⟨w,hw,rfl⟩ := mem_map.mp hmem
  exact ⟨w,hsub.subset hw,rfl⟩

end Plan

section Caret

variable (waiting : List Waiting) (focused : Option Object) (terminal : TerminalMark)

/-- The caret event moves over events alone, to just after one. -/
theorem caretAfterUpdate_split :
    caretAfterUpdate waiting focused terminal=waiting ∨ ∃ before caret between change after,
      waiting=before++caret::(between++change::after) ∧ change.isEvent=true ∧
      caretAfterUpdate waiting focused terminal=before++(between++change::caret::after) := by
  unfold caretAfterUpdate
  split
  · exact .inl rfl
  next runtimeId _ _ =>
    extract_lets window caret change
    split
    · exact .inl rfl
    next spot hspot =>
      obtain ⟨before,moved,later,rfl,rfl,_,_⟩ := findIdx?_split hspot
      have hdrop : (before++moved::later).drop (before.length+1)=later := by simp
      rw [hdrop,getElem?_split]
      split
      next newest _ hnewest hmoved =>
        cases hmoved
        obtain ⟨between,x,rest,hevents,rfl,_⟩ := lastIdx?_split hnewest
        obtain ⟨after,hlater,hall⟩ := takeWhile_split Waiting.isEvent later
        rw [hevents] at hlater hall
        refine .inr ⟨before,moved,between,x,rest++after,by simp [hlater],hall x (by simp),?_⟩
        have hlength : before.length+1+between.length=(before++(between++[x])).length := by
          simp
          omega
        rw [eraseIdx_split,hlength,hlater]
        have hassoc : before++(between++x::rest++after) =
            (before++(between++[x]))++(rest++after) := by simp
        rw [hassoc,insertIdx_split]
        simp
      · exact .inl rfl
  · exact .inl rfl

theorem caretAfterUpdate_perm : (caretAfterUpdate waiting focused terminal).Perm waiting := by
  rcases caretAfterUpdate_split waiting focused terminal with h |
    ⟨before,caret,between,change,after,rfl,_,h⟩
  · rw [h]
  rw [h]
  refine List.Perm.append_left before ?_
  refine (List.Perm.append_left between (List.Perm.swap caret change after)).trans ?_
  exact perm_middle

theorem caretAfterUpdate_concat {last : Waiting} (hlast : last.isEvent=false) :
    ∃ init, caretAfterUpdate (waiting++[last]) focused terminal=init++[last] ∧
      init.Perm waiting := by
  obtain ⟨init,heq⟩ : ∃ init,caretAfterUpdate (waiting++[last]) focused terminal=init++[last] := by
    rcases caretAfterUpdate_split (waiting++[last]) focused terminal with h |
      ⟨before,caret,between,change,after,hsplit,hevent,h⟩
    · exact ⟨waiting,h⟩
    rw [h]
    rcases eq_nil_or_concat after with rfl | ⟨after,x,rfl⟩
    · have hend : waiting++[last]=(before++caret::between)++[change] := by simp [hsplit]
      obtain rfl := singleton_inj.mp (append_inj_right' hend rfl)
      rw [hevent] at hlast
      cases hlast
    · have hend : waiting++[last]=(before++caret::(between++change::after))++[x] := by simp [hsplit]
      obtain rfl := singleton_inj.mp (append_inj_right' hend rfl)
      exact ⟨before++(between++change::caret::after),by simp⟩
  have hperm := caretAfterUpdate_perm (waiting++[last]) focused terminal
  rw [heq] at hperm
  exact ⟨init,heq,(perm_append_right_iff [last]).mp hperm⟩

end Caret

end Verbatim.Outpost
