import Verbatim.Core.FocusOrder

namespace Verbatim.Core.FocusOrder

open List

variable {D V F I E : Type}

/-- What a focus group's reports are ordered by: the newest group taken, beside everything else. -/
abbrev Grouped (V : Type) := Option (OutpostId × FocusGroup) × V

/-- Core's other rules with the group of each report taken recorded: `takes` tells the reports
that are, whole-window ones refused apart. -/
def Others.recording (o : Others D V F I E) (takes : V → Report D → Bool) :
    Others D (Grouped V) F I E where
  focus view := o.focus view.2
  front view := o.front view.2
  attention view := o.attention view.2
  processIsAttended view := o.processIsAttended view.2
  groupTaken := Prod.fst
  refusesFocus := o.refusesFocus
  isDuplicateFocus view := o.isDuplicateFocus view.2
  forgetTextOf view node := (view.1,o.forgetTextOf view.2 node)
  forgetTextOf_focus view node := o.forgetTextOf_focus view.2 node
  keepNewerReading view report := (view.1,o.keepNewerReading view.2 report)
  reduceFocusChanged view report :=
    let taken := (report.group.map fun group => (report.node.outpost,group)).or view.1
    ((if takes view.2 report then taken else view.1,(o.reduceFocusChanged view.2 report).1),
      (o.reduceFocusChanged view.2 report).2)
  reduceInput view input :=
    ((view.1,(o.reduceInput view.2 input).1),(o.reduceInput view.2 input).2)

section Recording

variable (o : Others D V F I E) (takes : V → Report D → Bool) (s : State (Grouped V))

def taken (report : Report D) : Bool :=
  let view := (o.recording takes).textForgotten s.view report
  (o.recording takes).passes s report && !o.isDuplicateFocus view.2 report && takes view.2 report

/-- A step that leaves an older entry of a group to be dropped: of its outpost only a newer entry
of the group passes, and is taken; of another only a focus observed after it, in another window. -/
def Spares (late : Report D) (group : FocusGroup) : Others.Op D I → Prop
  | .input _ => True
  | .focus report => (o.recording takes).passes s report=true →
      if report.node.outpost=late.node.outpost then
        taken o takes s report=true ∧
          ∃ newer, report.group=some newer ∧ newer.number=group.number ∧ newer.rank<group.rank
      else late.observedAtUs<report.observedAtUs ∧
        ¬(late.topLevel.isSome=true ∧ late.topLevel=report.topLevel)

def SparesAll (late : Report D) (group : FocusGroup) :
    State (Grouped V) → List (Others.Op D I) → Prop
  | _,[] => True
  | s,op::ops => Spares o takes s late group op ∧
      SparesAll late group ((o.recording takes).step s op) ops

/-- An older entry would be dropped: its group's newer entry was taken last, or it is stale. -/
def Dropped (late : Report D) (group : FocusGroup) : Prop :=
  (o.recording takes).olderThanTaken s.view late.node.outpost group=true ∨
    isStaleFocus s.latest late=true

theorem textForgotten_fst (view : Grouped V) (report : Report D) :
    ((o.recording takes).textForgotten view report).1=view.1 := by
  unfold Others.textForgotten
  split <;> rfl

theorem reduceEvent_group (report : Report D) :
    ((o.recording takes).passes s report=false →
      ((o.recording takes).reduceEvent s report).1.view.1=s.view.1) ∧
    ∀ newer, taken o takes s report=true → report.group=some newer →
      ((o.recording takes).reduceEvent s report).1.view.1=some (report.node.outpost,newer) := by
  have hforgotten := textForgotten_fst o takes s.view report
  simp only [taken,Others.passes,Others.reduceEvent]
  generalize (o.recording takes).textForgotten s.view report=view at hforgotten ⊢
  cases (o.recording takes).focusDroppedFirst {s with view} report <;>
    cases (o.recording takes).isAttended view report <;>
    cases hduplicate : o.isDuplicateFocus view.2 report <;> cases htakes : takes view.2 report <;>
    simp_all [Others.recording]

variable {o takes s} {late : Report D} {group : FocusGroup}

theorem step_dropped {op : Others.Op D I} (hspares : Spares o takes s late group op)
    (h : Dropped o takes s late group) (hknown : late.observedAtUs≠0) :
    Dropped o takes ((o.recording takes).step s op) late group := by
  cases op with
  | input input => exact h
  | focus report =>
    have hlatest := (o.recording takes).reduceEvent_latest s report
    obtain ⟨hkept,htaken⟩ := reduceEvent_group o takes s report
    cases hpasses : (o.recording takes).passes s report with
    | false =>
      rw [hpasses] at hlatest
      refine h.imp (fun hgroup => ?_) fun hstale => hlatest ▸ hstale
      change (((o.recording takes).reduceEvent s report).1.view.1).any _=true
      rwa [hkept hpasses]
    | true =>
      have hspared := hspares hpasses
      split at hspared
      next hown =>
        obtain ⟨hnow,newer,hnewer,hnumber,hrank⟩ := hspared
        refine .inl ?_
        change (((o.recording takes).reduceEvent s report).1.view.1).any _=true
        simp [htaken newer hnow hnewer,hown,hnumber,hrank]
      next hother =>
        refine .inr ?_
        change isStaleFocus ((o.recording takes).reduceEvent s report).1.latest late=true
        rw [hlatest,hpasses,if_pos rfl,Others.stamped,if_pos (by omega)]
        cases hwindow : late.topLevel <;> simp_all [isStaleFocus,LatestFocus.observedAfter]

theorem run_dropped {ops : List (Others.Op D I)} (hspares : SparesAll o takes late group s ops)
    (h : Dropped o takes s late group) (hknown : late.observedAtUs≠0) :
    Dropped o takes ((o.recording takes).run s ops) late group := by
  induction ops generalizing s with
  | nil => exact h
  | cons op ops ih => exact ih hspares.2 (step_dropped hspares.1 h hknown)

/-- Once a report of a group is taken, no older entry of it is along a run whose steps spare it. -/
theorem older_entry_dropped (s : State (Grouped V)) (first late : Report D)
    (newer older : FocusGroup) (ops : List (Others.Op D I)) (hnewer : first.group=some newer)
    (holder : late.group=some older) (hgroup : newer.number=older.number)
    (hrank : newer.rank<older.rank) (hsame : first.node.outpost=late.node.outpost)
    (hknown : late.observedAtUs≠0) (htaken : taken o takes s first=true)
    (hspares : SparesAll o takes late older ((o.recording takes).reduceEvent s first).1 ops) :
    taken o takes ((o.recording takes).run ((o.recording takes).reduceEvent s first).1 ops) late =
      false := by
  have hfirst : Dropped o takes ((o.recording takes).reduceEvent s first).1 late older := by
    refine .inl ?_
    change (((o.recording takes).reduceEvent s first).1.view.1).any _=true
    simp [(reduceEvent_group o takes s first).2 newer htaken hnewer,hsame,hgroup,hrank]
  have hdropped := run_dropped hspares hfirst hknown
  generalize (o.recording takes).run ((o.recording takes).reduceEvent s first).1 ops=t at hdropped
  have hfirst : (o.recording takes).focusDroppedFirst
      {t with view := (o.recording takes).textForgotten t.view late} late=true := by
    simp only [Others.focusDroppedFirst,Bool.or_eq_true,holder,Option.any_some]
    refine hdropped.imp (fun hgroup => .inl ?_) id
    change (((o.recording takes).textForgotten t.view late).1).any _=true
    rwa [textForgotten_fst]
  simp [taken,Others.passes,hfirst]

end Recording

def grouped (outpost observedAtUs window number rank : Nat) : Report Unit :=
  {focusOf outpost observedAtUs window with group := some ⟨number,rank⟩}

def takesAll (_ : Unit) (_ : Report Unit) : Bool := true

theorem older_entry_dropped_elsewhere : taken plain takesAll ((plain.recording takesAll).run
      ((plain.recording takesAll).reduceEvent ⟨none,none,()⟩ (grouped 1 10 1 4 0)).1
      [.focus (grouped 2 12 2 1 0)]) (grouped 1 8 1 4 1)=false :=
  older_entry_dropped _ _ _ ⟨4,0⟩ ⟨4,1⟩ _ rfl rfl rfl (by decide) rfl (by decide)
    (by decide +kernel)
    ⟨fun _ => by decide +kernel,trivial⟩

/-- Another outpost's report in the older entry's window replaces the group taken, and the stale
rule spares the window. -/
theorem older_entry_taken : taken plain takesAll ((plain.recording takesAll).run
      ((plain.recording takesAll).reduceEvent ⟨none,none,()⟩ (grouped 1 10 1 4 0)).1
      [.focus (grouped 2 12 1 1 0)]) (grouped 1 8 1 4 1)=true ∧
    taken plain takesAll ⟨none,none,()⟩ (grouped 1 10 1 4 0)=true := by
  decide +kernel

end Verbatim.Core.FocusOrder
