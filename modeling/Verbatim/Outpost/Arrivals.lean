import Verbatim.Outpost.Ledger
import Verbatim.Outpost.TryQueue

namespace Verbatim.Outpost

open ReaderRules Framework List

def Op.on (op : Op) (i : Intake) : Intake := (Ledger.step ⟨i,[],[],[]⟩ op).intake

/-- What an input does to the intake: entries arrive, a query is withdrawn, a noted caret is kept,
the gap record changes, the outpost closes. -/
def Op.arrives : Op → Bool
  | .next _ | .takeIdle => false
  | .whenIdle entry => entry.item.isNotedCaret
  | _ => true

/-- The intake goes from `i` to `i'` with `pushed` arriving and nothing taken. -/
def Acts (pushed : List Entry) (i i' : Intake) : Prop :=
  ∃ ops : List Op, i'=ops.foldl (fun i op => op.on i) i ∧
    ops.filterMap Op.pushed?=pushed ∧ ∀ op∈ops, op.arrives=true

namespace Acts

variable {i i' i'' : Intake} {pushed pushed' : List Entry}

theorem refl (i : Intake) : Acts [] i i := ⟨[],rfl,rfl,by simp⟩

theorem trans (h : Acts pushed i i') (h' : Acts pushed' i' i'') : Acts (pushed++pushed') i i'' := by
  obtain ⟨ops,rfl,rfl,hops⟩ := h
  obtain ⟨ops',rfl,rfl,hops'⟩ := h'
  refine ⟨ops++ops',by rw [foldl_append],filterMap_append,?_⟩
  intro op hop
  exact (mem_append.mp hop).elim (hops op) (hops' op)

theorem one (op : Op) (h : op.arrives=true) : Acts op.pushed?.toList i (op.on i) := by
  refine ⟨[op],rfl,?_,by simpa using h⟩
  cases op <;> rfl

theorem gap (g : GapRecord) : Acts [] i {i with gap := g} := one (.setGap g) rfl

/-- What holds of the intake and of what has arrived, and is kept by each arrival, holds. -/
theorem induct {P : List Entry → Intake → Prop} (h : Acts pushed i i') (hi : P [] i)
    (hstep : ∀ (op : Op) (done : List Entry) (j : Intake), op.arrives=true →
      (∀ entry∈op.pushed?, entry∈pushed) → P done j →
      P (done++op.pushed?.toList) (op.on j)) : P pushed i' := by
  obtain ⟨ops,rfl,rfl,hops⟩ := h
  induction ops using List.reverseRecOn with
  | nil => exact hi
  | append_singleton ops op ih =>
    have hlast : [op].filterMap Op.pushed?=op.pushed?.toList := by cases op <;> rfl
    rw [filterMap_append,hlast] at hstep ⊢
    rw [foldl_append]
    refine hstep op _ _ (hops op (by simp)) (fun entry hentry =>
      mem_append_right _ (Option.mem_toList.mpr hentry)) (ih ?_ ?_)
    · exact fun other hother => hops other (mem_append_left _ hother)
    · exact fun other done j harrives hmem =>
        hstep other done j harrives fun entry hentry => mem_append_left _ (hmem entry hentry)

theorem keeps {P : Intake → Prop}
    (hstep : ∀ (op : Op) (i : Intake), op.arrives=true → P i → P (op.on i))
    (h : Acts pushed i i') (hi : P i) : P i' :=
  h.induct hi fun op _ j harrives _ => hstep op j harrives

end Acts

namespace Reducer

variable {A : Type} {s : Reducer} {next : Reducer → Reduced}

theorem andThen_acts {i : Intake} {pushed pushed' : List Entry} {out : Reduced}
    (h : Acts pushed i out.1.intake) (h' : ∀ s, Acts pushed' s.intake (next s).1.intake) :
    Acts (pushed++pushed') i (andThen out next).1.intake := h.trans (h' out.1)

theorem onSome_acts {given : Option A} {step : A → Reducer → Reduced}
    (h : ∀ a, Acts [] s.intake (step a s).1.intake) :
    Acts [] s.intake (onSome given step s).1.intake := by
  cases given with
  | none => exact .refl _
  | some a => exact h a

theorem unspoken_facts {t : Reducer} (h : t.unspoken=s.unspoken) (facts : Facts) :
    {t with facts}.unspoken={s with facts}.unspoken :=
  congrArg (fun t : Reducer => {t with facts}) h

/-- What is left of `s` once messages are sent and facts recorded. -/
def Spoke (s t : Reducer) : Prop := ∃ facts, t.unspoken={s with facts}.unspoken

theorem Spoke.acts {t : Reducer} (h : Spoke s t) : Acts [] s.intake t.intake := by
  obtain ⟨facts,h⟩ := h
  have hsame := congrArg Reducer.intake h
  have hintake : t.intake={s.intake with gap := t.intake.gap} := by
    change {t.intake with gap := {}}={s.intake with gap := {}} at hsame
    generalize t.intake=i at hsame ⊢
    cases i
    cases hs : s.intake
    simp_all
  rw [hintake]
  exact .gap _

theorem Speaks.acts {step : Reducer → Reduced} (h : Speaks step) (s : Reducer) :
    Acts [] s.intake (step s).1.intake := Spoke.acts ⟨s.facts,h.same s⟩

variable (request : Request)

theorem ofRequest_intake (change : Current → Current) :
    (s.ofRequest request change).intake=s.intake := by
  unfold ofRequest
  split <;> rfl

theorem gapNote_eq (note : GapNote) (s : Reducer) :
    ∃ gap after, s.gapNote note={s.withGap (fun _ => gap) with after} := by
  cases note with
  | copyDropped window topLevel atUs trace =>
    unfold gapNote
    simp only
    split <;> exact ⟨_,_,rfl⟩
  | windowDestroyed hwnd => exact ⟨_,_,rfl⟩

variable (change : Change)

theorem notes_eq (s : Reducer) : ∃ intake after,
    s.notes change={s with intake, after} ∧ Acts [] s.intake intake := by
  have hfold : ∀ (notes : List GapNote) (s : Reducer), ∃ intake after,
      notes.foldl gapNote s={s with intake, after} ∧ Acts [] s.intake intake := by
    intro notes
    induction notes with
    | nil => exact fun s => ⟨_,_,rfl,.refl _⟩
    | cons note notes ih =>
      intro s
      obtain ⟨gap,after,heq⟩ := gapNote_eq note s
      obtain ⟨intake,after,hrest,hacts⟩ := ih (s.gapNote note)
      rw [heq] at hacts hrest
      exact ⟨intake,after,by rw [foldl_cons,heq,hrest]; rfl,.trans (.gap gap) hacts⟩
  obtain ⟨intake,after,heq,hacts⟩ := hfold change.gap s
  unfold notes
  rw [heq]
  split
  next node trace observedAtUs _ =>
    exact ⟨_,_,rfl,hacts.trans (.one (.whenIdle (.own (.notedCaret node) trace observedAtUs)) rfl)⟩
  · exact ⟨_,_,rfl,hacts⟩

theorem applyChange_acts (now : Now) :
    Acts [] s.intake (applyChange request change now s).1.intake := by
  have hspeaks := (subscriptionEffects_speaks (apply s.facts s.flight.generation change
    (some now.wallUs)).2 now).acts
  refine Eq.subst (motive := fun i => Acts [] i _) ?_ (hspeaks _)
  rw [ofRequest_intake]

theorem commit_eq (s : Reducer) (now : Now) : ∃ t, Spoke s t ∧
    (commit request change now s).1=(applyChange request change now (t.notes change)).1 := by
  have hfound := (Speaks.onSome (found_speaks request) change.found).same s
  exact ⟨_,⟨_,((Speaks.onSome (result_speaks request) change.result).same _).trans
    (unspoken_facts hfound _)⟩,rfl⟩

theorem commit_acts (now : Now) : Acts [] s.intake (commit request change now s).1.intake := by
  obtain ⟨t,ht,heq⟩ := commit_eq request change s now
  obtain ⟨intake,after,hnotes,hacts⟩ := notes_eq change t
  rw [heq,hnotes]
  exact (ht.acts.trans hacts).trans (applyChange_acts request change now)

theorem recordPush_acts (entry : Entry) : Acts [] s.intake (s.recordPush entry).intake := by
  unfold recordPush
  split
  · split <;> exact .refl _
  · exact .gap _
  · exact .refl _

theorem push_acts (entry : Entry) : Acts [entry] s.intake (s.push entry).1.intake :=
  (recordPush_acts entry).trans (.one (.push entry (s.recordPush entry).facts.marks.toMarks) rfl)

theorem pushAll_eq (entries : List Entry) (s : Reducer) :
    ∃ intake queries, (pushAll entries s).1={s with intake, queries} := by
  induction entries generalizing s with
  | nil => exact ⟨_,_,rfl⟩
  | cons entry entries ih =>
    obtain ⟨intake,queries,heq⟩ := ih (s.push entry).1
    refine ⟨intake,queries,heq.trans ?_⟩
    simp only [push,recordPush]
    split
    · split <;> rfl
    · rfl
    · rfl

theorem pushAll_acts (entries : List Entry) (s : Reducer) :
    Acts entries s.intake (pushAll entries s).1.intake := by
  induction entries generalizing s with
  | nil => exact .refl _
  | cons entry entries ih => exact (push_acts entry).trans (ih _)

theorem destroySeen_intake (item : Item) : (s.destroySeen item).intake=s.intake := by
  unfold destroySeen
  split
  · split <;> rfl
  · rfl

theorem destroySeen_hold (item : Item) : (s.destroySeen item).hold=s.hold := by
  unfold destroySeen
  split
  · split <;> rfl
  · rfl

theorem continueGroup_eq (group : GroupTry) :
    s.continueGroup group={s with after := continued group s.after} := by
  cases holder : group.older <;> simp [continueGroup,continued,holder]

theorem groupFinished_eq (group : GroupTry) (isOver : Bool) :
    s.groupFinished group isOver={s with after := finishedRows (some group) isOver s.after} := by
  have hgoes : (if isOver then s else s.continueGroup group) =
      {s with after := if isOver then s.after else continued group s.after} := by
    split
    · rfl
    · exact continueGroup_eq group
  unfold groupFinished
  cases hafter : s.after with
  | nil =>
    rw [hafter] at hgoes
    exact hgoes
  | cons row rest =>
    rw [hafter] at hgoes
    simp only [finishedRows]
    split
    · split <;> rfl
    · exact hgoes

theorem abandoned_eq (a : Abandoned Current) (s : Reducer) (now : Now) : ∃ t, Spoke s t ∧
    (s.abandoned a now).1={t with after := abandonedRows a.item.group a.published t.after} := by
  simp only [abandoned,andThen]
  generalize hleft : (onSome a.item.running (answerLeft .abandoned) (onSome _ (answerWatch now)
    _).1).1=t
  refine ⟨t,⟨_,hleft ▸ ((Speaks.onSome (answerLeft_speaks .abandoned) _).same _).trans
    ((Speaks.onSome (answerWatch_speaks now) _).same _)⟩,?_⟩
  cases a.item.group with
  | none => rfl
  | some group =>
    simp only [abandonedRows]
    split
    · rfl
    · exact continueGroup_eq group

theorem ended_eq (current : Current) (isOver : Bool) (s : Reducer) (now : Now) : ∃ t, Spoke s t ∧
    (s.ended current isOver now).1={t with after := finishedRows current.group isOver t.after} := by
  simp only [ended,andThen]
  generalize hleft : (onSome current.running (answerLeft _) (onSome _ (answerWatch now) _).1).1=t
  refine ⟨t,⟨_,hleft ▸ ((Speaks.onSome (answerLeft_speaks _) _).same _).trans
    ((Speaks.onSome (answerWatch_speaks now) _).same _)⟩,?_⟩
  cases current.group with
  | none => rfl
  | some group => exact groupFinished_eq group isOver

theorem decided_acts (decision : Decision Current) (now : Now) :
    Acts [] s.intake (s.decided decision now).1.intake := by
  unfold decided
  split
  · exact .refl _
  · exact .refl _
  · exact .refl _
  next a =>
    obtain ⟨t,ht,heq⟩ := abandoned_eq a s now
    rw [heq]
    exact ht.acts

theorem ended_acts (current : Current) (isOver : Bool) (now : Now) :
    Acts [] s.intake (s.ended current isOver now).1.intake := by
  obtain ⟨t,ht,heq⟩ := ended_eq current isOver s now
  rw [heq]
  exact ht.acts

theorem finished_acts (reported panicked : Bool) (cut : Option Cut)
    (now : Now) : Acts [] s.intake (s.finished request reported panicked cut now).1.intake := by
  unfold finished
  split
  · exact .refl _
  simp only
  split
  · unfold dispatchFinish
    split <;> exact .refl _
  · exact ended_acts _ _ now

theorem gapBound_eq (s : Reducer) : ∃ gap requests,
    s.gapBound.1={s.withGap (fun _ => gap) with flight := {s.flight with requests}} := by
  unfold gapBound
  split
  · exact ⟨_,_,rfl⟩
  split
  · exact ⟨_,_,rfl⟩
  split <;> exact ⟨_,_,rfl⟩

theorem gapBound_acts : Acts [] s.intake s.gapBound.1.intake := by
  obtain ⟨gap,requests,heq⟩ := gapBound_eq s
  rw [heq]
  exact .gap _

theorem released_acts (nodes anchors : List Nat) (objects : Bool) (now : Now) :
    Acts [] s.intake (s.released nodes anchors objects now).1.intake := by
  exact (subscriptionEffects_speaks _ now).acts _

/-- Whether the test of the record's window finds its bound's entry to queue. -/
def queuesBound (record : GapOpen) (s : Reducer) : Bool :=
  decide (record.awaits=.focus) && s.intake.gap.isOpen

def arrivals (s : Reducer) (now : Now) : Step → List Entry
  | .input (.entry entry source) => (s.hold.entry entry source).2
  | .input .withoutListener => s.hold.withoutListener.2
  | .input (.forwardingEnded through) => (s.hold.forwardingEnded through).2.getD []
  | .input (.gapBoundTested request true title) =>
      (s.intake.gap.opened.filter fun record => queuesBound record
        (onSome title (fun change => commit request change now) s).1).toList.map
        fun record => .own (.gapBound record.boundNumber) record.trace now.observedUs
  | _ => []

theorem gapBoundTested_acts (related : Bool) (title : Option Change)
    (now : Now) : Acts (s.arrivals now (.input (.gapBoundTested request related title))) s.intake
      (s.gapBoundTested request related title now).1.intake := by
  cases related with
  | false =>
    unfold gapBoundTested
    split
    · exact .refl _
    · exact .gap _
  | true =>
    cases hopened : s.intake.gap.opened with
    | none =>
      unfold gapBoundTested
      simp only [hopened,arrivals]
      exact .refl _
    | some record =>
      unfold gapBoundTested
      simp only [hopened,if_true,andThen,arrivals]
      have hcommit : Acts [] s.intake
          (onSome title (fun change => commit request change now) s).1.intake :=
        onSome_acts fun change => commit_acts request change now
      generalize (onSome title (fun change => commit request change now) s).1=t at hcommit ⊢
      refine hcommit.trans ?_
      unfold queueBound
      by_cases hqueues : record.awaits=.focus ∧ t.intake.gap.isOpen=true
      · rw [if_pos hqueues]
        have hq : queuesBound record t=true := by simpa [queuesBound] using hqueues
        simp only [Option.filter,hq,if_true,Option.toList_some,map_cons,map_nil]
        exact .one (.push (.own (.gapBound record.boundNumber) record.trace now.observedUs)
          t.facts.marks.toMarks) rfl
      · rw [if_neg hqueues]
        have hq : queuesBound record t=false := by
          simpa [queuesBound] using hqueues
        simp only [Option.filter,hq]
        exact .gap _

theorem takeIn_acts (input : Input) (now : Now) :
    Acts (s.arrivals now (.input input)) s.intake (s.takeIn input now).1.intake := by
  cases input with
  | entry entry source =>
    change Acts (s.hold.entry entry source).2 _ (takeEntry entry source s).1.intake
    rw [← destroySeen_hold entry.item,← destroySeen_intake entry.item]
    exact pushAll_acts _ _
  | withoutListener | forwardingEnded through => exact pushAll_acts _ _
  | cancel requestId =>
    exact Acts.trans (.one (.cancel requestId) rfl)
      ((Speaks.onSome (fun trace => send_speaks _) _).acts _)
  | commit request change =>
    unfold takeIn
    simp only
    split
    · exact commit_acts request change now
    · exact .refl _
  | walkReturned request past => exact decided_acts _ now
  | finished request reported panicked cut => exact finished_acts request reported panicked cut now
  | released nodes anchors objects => exact released_acts nodes anchors objects now
  | gapBound => exact gapBound_acts
  | gapBoundTested request related title => exact gapBoundTested_acts request related title now
  | judged request verdict window =>
    unfold takeIn
    simp only
    split
    · exact .refl _
    · refine andThen_acts ((Speaks.onSome (hangSeen_speaks request) _).acts s) (fun s => ?_)
      exact decided_acts _ now
  | published request change thenAbandon =>
    refine andThen_acts (onSome_acts fun change => commit_acts request change now) fun s => ?_
    exact decided_acts _ now
  | close => exact .one .close rfl
  | _ => exact .refl _

theorem wake_acts (now : Now) : Acts [] s.intake (s.wake now).1.intake := by
  refine andThen_acts (decided_acts _ now) fun s => ?_
  split
  · exact gapBound_acts
  · exact .refl _

theorem start_acts (s : Reducer) (st : Step) (now : Now) :
    Acts (s.arrivals now st) s.intake (s.start st now).1.intake := by
  cases st with
  | input input => exact takeIn_acts input now
  | tick => exact wake_acts now

end Reducer

end Verbatim.Outpost
