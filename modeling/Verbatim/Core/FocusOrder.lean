import Verbatim.Core.Queries

namespace Verbatim.Core.FocusOrder

open List

structure WindowFacts where
  topLevel : Nat
  rootOwner : Nat
  deriving DecidableEq

/-- The window the focus listener last reported in front, and when it observed it. -/
structure Front where
  window : Nat
  rootOwner : Nat
  observedAtUs : Nat
  deriving DecidableEq

namespace Front

def relates (front : Front) (facts : WindowFacts) : Bool :=
  [facts.topLevel,facts.rootOwner].any fun window =>
    window == front.window || window == front.rootOwner

def observedAfter (front : Front) (observedAtUs : Nat) : Bool :=
  observedAtUs != 0 && observedAtUs<front.observedAtUs

end Front

/-- The observation by which a focus of another generation is ordered. -/
structure LatestFocus where
  outpost : OutpostId
  observedAtUs : Nat
  topLevel : Option Nat
  deriving DecidableEq

def LatestFocus.observedAfter (latest : LatestFocus) (observedAtUs : Nat) : Bool :=
  observedAtUs<latest.observedAtUs

structure FocusGroup where
  number : Nat
  rank : Nat
  deriving DecidableEq

/-- What the reader read of the element it held under the node before. -/
inductive EarlierElement where
  | focused
  | notFocused
  | gone
  deriving DecidableEq

/-- A focus event, its snapshot, ancestors and text as `D`. -/
structure Report (D : Type) where
  node : NodeId
  observedAtUs : Nat
  source : Nat
  window : Option WindowFacts
  wholeWindow : Bool
  earlier : Option EarlierElement
  group : Option FocusGroup
  data : D
  deriving DecidableEq

variable {D V F I E : Type}

def Report.topLevel (report : Report D) : Option Nat := report.window.map WindowFacts.topLevel

/-- Core's other state, of which the ordering of focuses reads the front, the group last taken and
whether attention is known, and its other rules. What a reader says an element lost is forgotten
of its text, never of the focus. -/
structure Others (D V F I E : Type) where
  focus : V → F
  front : V → Option Front
  attention : V → Bool
  processIsAttended : V → Nat → Bool
  groupTaken : V → Option (OutpostId × FocusGroup)
  refusesFocus : Option WindowFacts → D → Bool
  isDuplicateFocus : V → Report D → Bool
  forgetTextOf : V → NodeId → V
  forgetTextOf_focus : ∀ view node,focus (forgetTextOf view node)=focus view
  keepNewerReading : V → Report D → V
  reduceFocusChanged : V → Report D → V × List E
  reduceInput : V → I → V × List E

/-- The ordering stamp beside everything else. -/
structure State (V : Type) where
  latest : Option LatestFocus := none
  view : V

/-- Observed before the newest focus of another generation, in another top-level window. -/
def isStaleFocus (latest : Option LatestFocus) (report : Report D) : Bool :=
  report.observedAtUs != 0 && latest.any fun latest =>
    latest.outpost != report.node.outpost && latest.observedAfter report.observedAtUs &&
      !(report.topLevel.isSome && report.topLevel == latest.topLevel)

namespace Others

variable (o : Others D V F I E)

def olderThanTaken (view : V) (outpost : OutpostId) (group : FocusGroup) : Bool :=
  (o.groupTaken view).any fun taken =>
    taken.1 == outpost && taken.2.number == group.number && taken.2.rank<group.rank

def textForgotten (view : V) (report : Report D) : V :=
  if report.earlier=some .notFocused ∨ report.earlier=some .gone then
    o.forgetTextOf view report.node
  else view

def focusDroppedFirst (s : State V) (report : Report D) : Bool :=
  report.group.any (o.olderThanTaken s.view report.node.outpost) ||
    (!report.wholeWindow && o.refusesFocus report.window report.data) ||
    isStaleFocus s.latest report

/-- A focus is judged against the front, without window facts by its application. -/
def isAttended (view : V) (report : Report D) : Bool :=
  !o.attention view ||
    match report.window with
    | some facts => !(o.front view).any fun front =>
        front.observedAfter report.observedAtUs && !front.relates facts
    | none => o.processIsAttended view report.source

/-- The stamp after a focus that passed the tests: its own, whatever it was. -/
def stamped (latest : Option LatestFocus) (report : Report D) : Option LatestFocus :=
  if report.observedAtUs≠0 then
    some ⟨report.node.outpost,report.observedAtUs,report.topLevel⟩
  else latest

def reduceEvent (s : State V) (report : Report D) : State V × List E :=
  let s := {s with view := o.textForgotten s.view report}
  if o.focusDroppedFirst s report then (s,[])
  else if !o.isAttended s.view report then (s,[])
  else
    let s := {s with latest := stamped s.latest report}
    if o.isDuplicateFocus s.view report then
      ({s with view := o.keepNewerReading s.view report},[])
    else
      let (view,effects) := o.reduceFocusChanged s.view report
      ({s with view := view},effects)

inductive Op (D I : Type) where
  | focus (report : Report D)
  | input (input : I)

def step (s : State V) : Op D I → State V
  | .focus report => (o.reduceEvent s report).1
  | .input input => {s with view := (o.reduceInput s.view input).1}

def run (s : State V) (ops : List (Op D I)) : State V := ops.foldl o.step s

def Op.report : Op D I → Option (Report D)
  | .focus report => some report
  | .input _ => none

def focuses (ops : List (Op D I)) : List (Report D) := ops.filterMap Op.report

def passes (s : State V) (report : Report D) : Bool :=
  let s := {s with view := o.textForgotten s.view report}
  !o.focusDroppedFirst s report && o.isAttended s.view report

def keepsOrder (s : State V) : Op D I → Bool
  | .focus report => !o.passes s report ||
      s.latest.all fun latest => latest.observedAtUs≤report.observedAtUs
  | .input _ => true

def forward (s : State V) : List (Op D I) → Bool
  | [] => true
  | op::ops => o.keepsOrder s op && forward (o.step s op) ops

end Others

/-- Known times, each generation's in order. -/
structure Observed (reports : List (Report D)) : Prop where
  known : ∀ report∈reports,report.observedAtUs≠0
  order : reports.Pairwise fun a b =>
    a.node.outpost=b.node.outpost → a.observedAtUs≤b.observedAtUs

namespace Others

variable (o : Others D V F I E)

theorem reduceEvent_latest (s : State V) (report : Report D) :
    (o.reduceEvent s report).1.latest =
      if o.passes s report then stamped s.latest report else s.latest := by
  simp only [reduceEvent,passes]
  by_cases dropped : o.focusDroppedFirst {s with view := o.textForgotten s.view report} report=true
  · simp [dropped]
  by_cases attended : o.isAttended (o.textForgotten s.view report) report=true
  · simp only [dropped,attended,Bool.not_true,Bool.not_false,Bool.and_true,Bool.false_eq_true,
      if_false,if_true]
    split <;> rfl
  · simp [dropped,attended]

/-- What a stale focus changes: nothing but the text its reader says was lost. -/
theorem reduceEvent_stale {s : State V} {report : Report D}
    (stale : isStaleFocus s.latest report=true) :
    o.reduceEvent s report=({s with view := o.textForgotten s.view report},[]) := by
  have dropped : o.focusDroppedFirst {s with view := o.textForgotten s.view report} report =
      true := by
    simp [focusDroppedFirst,stale]
  simp only [reduceEvent,dropped,if_true]

theorem textForgotten_focus (view : V) (report : Report D) :
    o.focus (o.textForgotten view report)=o.focus view := by
  unfold textForgotten
  split
  · exact o.forgetTextOf_focus view report.node
  · rfl

theorem latest_run (ops : List (Op D I)) (s : State V) {latest : LatestFocus}
    (stamp : s.latest=some latest) (known : ∀ report∈focuses ops,report.observedAtUs≠0)
    (forward : o.forward s ops=true) :
    ∃ newest,(o.run s ops).latest=some newest ∧ latest.observedAtUs≤newest.observedAtUs ∧
      (newest=latest ∨ ∃ report∈focuses ops,
        newest=⟨report.node.outpost,report.observedAtUs,report.topLevel⟩) := by
  induction ops generalizing s latest with
  | nil => exact ⟨latest,stamp,Nat.le_refl _,.inl rfl⟩
  | cons op ops ih =>
    simp only [Others.forward,Bool.and_eq_true] at forward
    obtain ⟨keeps,later⟩ := forward
    cases op with
    | input input => exact ih (o.step s (.input input)) stamp known later
    | focus report =>
      have rest : ∀ report∈focuses ops,report.observedAtUs≠0 :=
        fun report inside => known report (mem_cons_of_mem _ inside)
      have after := o.reduceEvent_latest s report
      by_cases passes : o.passes s report=true
      · rw [if_pos passes,stamped,if_pos (known report mem_cons_self)] at after
        have order : latest.observedAtUs≤report.observedAtUs := by
          simpa [keepsOrder,passes,stamp] using keeps
        obtain ⟨newest,is,bound,origin⟩ := ih _ after rest later
        refine ⟨newest,is,Nat.le_trans order bound,.inr ?_⟩
        rcases origin with own | ⟨other,inside,own⟩
        · exact ⟨report,mem_cons_self,own⟩
        · exact ⟨other,mem_cons_of_mem _ inside,own⟩
      · rw [if_neg passes,stamp] at after
        obtain ⟨newest,is,bound,origin⟩ := ih _ after rest later
        exact ⟨newest,is,bound,origin.imp_right fun ⟨other,inside,own⟩ =>
          ⟨other,mem_cons_of_mem _ inside,own⟩⟩

/-- Once a focus has passed the tests, in every run in which the stamp never goes back a focus
observed before it is dropped exactly when it is not in the newest focus's top-level window, and
then changes neither the stamp nor the focus and says nothing. -/
theorem stale_focus_dropped (s : State V) (first late : Report D) (ops : List (Op D I))
    (passed : o.passes s first=true) (observed : Observed (first::focuses ops++[late]))
    (forward : o.forward (o.reduceEvent s first).1 ops=true)
    (before : late.observedAtUs<first.observedAtUs) :
    ∃ newest,(o.run (o.reduceEvent s first).1 ops).latest=some newest ∧
      first.observedAtUs≤newest.observedAtUs ∧
      (isStaleFocus (some newest) late=true ↔
        ¬(late.topLevel.isSome=true ∧ late.topLevel=newest.topLevel)) ∧
      (isStaleFocus (some newest) late=true →
        let t := o.run (o.reduceEvent s first).1 ops
        (o.reduceEvent t late).2=[] ∧ (o.reduceEvent t late).1.latest=t.latest ∧
          o.focus (o.reduceEvent t late).1.view=o.focus t.view) := by
  obtain ⟨known,order⟩ := observed
  have own := o.reduceEvent_latest s first
  rw [if_pos passed,stamped,if_pos (known first (by simp))] at own
  obtain ⟨newest,is,bound,origin⟩ := o.latest_run ops _ own
    (fun report inside => known report (by simp [inside])) forward
  -- the stamp is of an arrival, so its generation's later reports are no earlier
  have generation : newest.outpost=late.node.outpost → newest.observedAtUs≤late.observedAtUs := by
    have last := (pairwise_append.mp order).2.2
    rcases origin with rfl | ⟨report,inside,rfl⟩
    · exact last first (by simp) late (by simp)
    · exact last report (by simp [inside]) late (by simp)
  have late_known : late.observedAtUs≠0 := known late (by simp)
  have bound : first.observedAtUs≤newest.observedAtUs := bound
  have other : newest.outpost≠late.node.outpost := fun same => by
    have := generation same
    omega
  refine ⟨newest,is,bound,?_,?_⟩
  · have after : late.observedAtUs<newest.observedAtUs := by omega
    simp [isStaleFocus,late_known,other,LatestFocus.observedAfter,after,
      Option.isSome_iff_ne_none,Classical.or_iff_not_imp_left]
  · intro stale t
    rw [← is] at stale
    rw [o.reduceEvent_stale stale]
    exact ⟨rfl,rfl,o.textForgotten_focus _ late⟩

end Others

def plain : Others Unit Unit Unit Unit Nat where
  focus := id
  front _ := none
  attention _ := false
  processIsAttended _ _ := true
  groupTaken _ := none
  refusesFocus _ _ := false
  isDuplicateFocus _ _ := false
  forgetTextOf view _ := view
  forgetTextOf_focus _ _ := rfl
  keepNewerReading view _ := view
  reduceFocusChanged view report := (view,[report.observedAtUs])
  reduceInput view _ := (view,[])

def focusOf (outpost observedAtUs window : Nat) : Report Unit :=
  ⟨⟨outpost,1⟩,observedAtUs,outpost,some ⟨window,window⟩,false,none,none,()⟩

theorem stale_focus_dropped_third :
    (plain.reduceEvent (plain.run (plain.reduceEvent ⟨none,()⟩ (focusOf 1 10 1)).1
      [.focus (focusOf 2 12 2)]) (focusOf 3 7 3)).2=[] := by
  obtain ⟨newest,is,-,stale,dropped⟩ := plain.stale_focus_dropped ⟨none,()⟩ (focusOf 1 10 1)
    (focusOf 3 7 3) [.focus (focusOf 2 12 2)] (by decide +kernel)
    ⟨by decide +kernel,by decide +kernel⟩ (by decide +kernel) (by decide +kernel)
  have stamp : (plain.run (plain.reduceEvent ⟨none,()⟩ (focusOf 1 10 1)).1
      [.focus (focusOf 2 12 2)]).latest=some ⟨2,12,some 2⟩ := by decide +kernel
  cases is.symm.trans stamp
  exact (dropped (stale.mpr (by decide +kernel))).1

/-- A focus in the first one's window, observed before it by another generation, passes and takes
the stamp back, and a third generation's focus in another window, older than the first, is taken. -/
theorem stale_focus_taken :
    let t := plain.run (plain.reduceEvent ⟨none,()⟩ (focusOf 1 10 1)).1 [.focus (focusOf 2 5 1)]
    t.latest=some ⟨2,5,some 1⟩ ∧ isStaleFocus t.latest (focusOf 3 7 2)=false ∧
      (plain.reduceEvent t (focusOf 3 7 2)).2=[7] := by
  decide +kernel

end Verbatim.Core.FocusOrder
