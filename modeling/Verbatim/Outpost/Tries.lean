import Verbatim.Outpost.Barriers
import Verbatim.Outpost.Pumping

namespace Verbatim.Outpost

open ReaderRules Framework TryQueue List InFlight

def Work.tried : Work → List (Nat × Entry)
  | .entry handled _ _ (some group) =>
      if handled.item.isGapRead then [] else [(group.number,handled)]
  | _ => []

def attempts (effects : List Effect) : List (Nat × Entry) :=
  (programs effects).flatMap fun program => program.work.tried

@[simp] theorem attempts_nil : attempts []=[] := rfl

@[simp] theorem attempts_append (xs ys : List Effect) :
    attempts (xs++ys)=attempts xs++attempts ys := by
  simp [attempts]

/-- The program in flight as the tries see it: its request, its group, and whether its walk was
published. -/
def flying (f : InFlight Current) : Option (Request × Option GroupTry × Bool) :=
  f.underWay.map fun (request,item,published) => (request,item.group,published)

theorem flying_withItem (f : InFlight Current) (change : Current → Current)
    (h : ∀ current, (change current).group=current.group) :
    flying (f.withItem change)=flying f := by
  unfold flying withItem underWay
  cases f.running with
  | none => rfl
  | some running => simp [h]

namespace Reducer

variable {A : Type} {s s' : Reducer}

def tryQueue (s : Reducer) : TryQueue :=
  ⟨(flying s.flight).map fun flying => flying.2.1,s.after,s.focusGroups⟩

/-- What of the reducer the tries and the idle answers depend on. -/
def trying (s : Reducer) :
    Option (Request × Option GroupTry × Bool) × List Row × Nat × Option Nat :=
  (flying s.flight,s.after,s.focusGroups,s.idleQuery)

theorem queue_of_trying {flies : Option (Request × Option GroupTry × Bool)} {rows : List Row}
    {groups : Nat} {round : Option Nat} (h : s.trying=(flies,rows,groups,round)) :
    s.tryQueue=⟨flies.map fun flying => flying.2.1,rows,groups⟩ ∧ s.idleQuery=round := by
  simp only [trying,Prod.mk.injEq] at h
  obtain ⟨hflying,hafter,hgroups,hround⟩ := h
  exact ⟨by rw [tryQueue,hflying,hafter,hgroups],hround⟩

theorem tryQueue_eq (h : s'.trying=s.trying) : s'.tryQueue=s.tryQueue := (queue_of_trying h).1

theorem unspoken_trying (s : Reducer) : s.unspoken.trying=s.trying := by
  unfold trying unspoken
  rw [flying_withItem _ Current.silent fun _ => rfl]

theorem Spoke.trying (h : Spoke s s') : s'.trying=s.trying := by
  obtain ⟨facts,h⟩ := h
  rw [← unspoken_trying,h,unspoken_trying]
  rfl

variable {step : Reducer → Reduced}

theorem Speaks.trying (h : Speaks step) (s : Reducer) : (step s).1.trying=s.trying :=
  Spoke.trying ⟨s.facts,h.same s⟩

theorem Speaks.attempts (h : Speaks step) (s : Reducer) : attempts (step s).2=[] := by
  rw [Outpost.attempts,h.programs s]
  rfl

def Reads (s s' : Reducer) : Prop :=
  ∃ rows, (∀ row∈rows, s.tryQueue.IsRead row) ∧
    s'.trying=(flying s.flight,rows++s.after,s.focusGroups,s.idleQuery)

namespace Reads

theorem of_trying (h : s'.trying=s.trying) : Reads s s' := ⟨[],by simp,h⟩

theorem refl (s : Reducer) : Reads s s := .of_trying rfl

theorem trans {s'' : Reducer} (h : Reads s s') (h' : Reads s' s'') : Reads s s'' := by
  obtain ⟨rows,hrows,htrying⟩ := h
  obtain ⟨rows',hrows',htrying'⟩ := h'
  simp only [trying,Prod.mk.injEq] at htrying
  obtain ⟨hflying,hafter,hgroups,hround⟩ := htrying
  refine ⟨rows'++rows,?_,?_⟩
  · intro row hrow
    rcases mem_append.mp hrow with hrow | hrow
    · have hread := hrows' row hrow
      unfold IsRead tryQueue at hread
      rw [hflying] at hread
      exact hread
    · exact hrows row hrow
  · rw [htrying',hflying,hafter,hgroups,hround,append_assoc]

end Reads

variable (request : Request)

theorem ofRequest_trying {change : Current → Current}
    (h : ∀ current, (change current).group=current.group) :
    (s.ofRequest request change).trying=s.trying := by
  unfold ofRequest
  split
  · simp only [trying,flying_withItem _ change h]
  · rfl

theorem gapNote_reads (note : GapNote) : Reads s (s.gapNote note) := by
  cases note with
  | copyDropped window topLevel atUs trace =>
    unfold gapNote
    simp only
    split
    · refine ⟨[_],?_,rfl⟩
      intro row hrow
      obtain rfl := mem_singleton.mp hrow
      refine ⟨rfl,?_⟩
      unfold tryQueue flying underWay withGap
      cases s.flight.running <;> rfl
    · exact .of_trying rfl
  | windowDestroyed hwnd => exact .of_trying rfl

variable (change : Change)

theorem notes_reads : Reads s (s.notes change) := by
  have hfold : ∀ (notes : List GapNote) (s : Reducer), Reads s (notes.foldl gapNote s) := by
    intro notes
    induction notes with
    | nil => exact fun s => .refl s
    | cons note notes ih => exact fun s => (gapNote_reads note).trans (ih _)
  unfold notes
  split
  · exact (hfold change.gap s).trans (.of_trying rfl)
  · exact hfold change.gap s

theorem applyChange_trying (now : Now) : (applyChange request change now s).1.trying=s.trying := by
  unfold applyChange
  simp only [andThen]
  rw [(subscriptionEffects_speaks _ now).trying]
  exact ofRequest_trying request fun _ => rfl

theorem commit_reads (now : Now) : Reads s (commit request change now s).1 := by
  obtain ⟨t,ht,heq⟩ := commit_eq request change s now
  rw [heq]
  refine (Reads.of_trying ht.trying).trans ((notes_reads change).trans ?_)
  exact .of_trying (applyChange_trying request change now)

def finishedBy (st : Step) (request : Request) : Bool :=
  match st with
  | .input (.finished ended _ _ _) => ended=request
  | _ => false

def reportedBy (st : Step) (request : Request) : Bool :=
  match st with
  | .input (.finished ended reported _ _) => reported && ended=request
  | _ => false

def publishedBy (st : Step) (request : Request) : Bool :=
  match st with
  | .input (.published walked change _) => change.isSome && walked=request
  | _ => false

/-- What a step leaves of the tries before anything is started. -/
inductive Starts (s : Reducer) (st : Step) : TryQueue → Prop where
  | stays {rows : List Row} (hrows : ∀ row∈rows, s.tryQueue.IsRead row) :
      Starts s st {s.tryQueue with after := rows++s.after}
  | finished {request : Request} {group : Option GroupTry} {published : Bool}
      (hflying : flying s.flight=some (request,group,published))
      (hst : finishedBy st request=true) :
      Starts s st ⟨none,finishedRows group (reportedBy st request || published) s.after,
        s.focusGroups⟩
  | abandoned {request : Request} {group : Option GroupTry} {published : Bool} {rows : List Row}
      (hflying : flying s.flight=some (request,group,published))
      (hst : finishedBy st request=false) (hrows : ∀ row∈rows, s.tryQueue.IsRead row)
      (hnone : (published || publishedBy st request)=false → rows=[]) :
      Starts s st ⟨none,abandonedRows group (published || publishedBy st request)
        (rows++s.after),s.focusGroups⟩

/-- `s'` is what the step leaves before anything is started: no round was reached or answered. -/
def Begins (s : Reducer) (st : Step) (s' : Reducer) : Prop :=
  Starts s st s'.tryQueue ∧ s'.idleQuery=s.idleQuery

theorem Reads.begins (h : Reads s s') (st : Step) : Begins s st s' := by
  obtain ⟨rows,hrows,htrying⟩ := h
  obtain ⟨hqueue,hround⟩ := queue_of_trying htrying
  refine ⟨?_,hround⟩
  rw [hqueue]
  exact .stays hrows

theorem abandoned_trying (a : Abandoned Current) (now : Now) : (s.abandoned a now).1.trying =
      (flying s.flight,abandonedRows a.item.group a.published s.after,s.focusGroups,
        s.idleQuery) := by
  obtain ⟨t,ht,heq⟩ := abandoned_eq a s now
  have hsame := ht.trying
  simp only [trying,Prod.mk.injEq] at hsame
  simp [heq,trying,hsame]

theorem ended_trying (current : Current) (isOver : Bool) (now : Now) :
    (s.ended current isOver now).1.trying =
      (flying s.flight,finishedRows current.group isOver s.after,s.focusGroups,s.idleQuery) := by
  obtain ⟨t,ht,heq⟩ := ended_eq current isOver s now
  have hsame := ht.trying
  simp only [trying,Prod.mk.injEq] at hsame
  simp [heq,trying,hsame]

section Decisions

variable {f f' : InFlight Current} {decision : Decision Current}

theorem decided_trying (h : f.Decides f' decision) (s : Reducer) (now : Now) :
    ({s with flight := f'}.decided decision now).1.trying =
        (flying f,s.after,s.focusGroups,s.idleQuery) ∨
      ∃ request group published, flying f=some (request,group,published) ∧
        ({s with flight := f'}.decided decision now).1.trying =
          (none,abandonedRows group published s.after,s.focusGroups,s.idleQuery) := by
  cases decision with
  | nothing => exact .inl (by simp only [decided,trying,flying,h.1])
  | ask ask => cases ask <;> exact .inl (by simp only [decided,trying,flying,h.1])
  | abandon a =>
    obtain ⟨running,hrunning,hnone,_,hitem,hpublished⟩ := h
    have htrying := abandoned_trying (s := {s with flight := f'}) a now
    refine .inr ⟨running.request,running.item.group,decide (running.walk=.published),?_,?_⟩
    · simp [flying,underWay,hrunning]
    · refine htrying.trans ?_
      simp [flying,underWay,hnone,hitem,hpublished]

variable (f : InFlight Current) (request : Request)

theorem walkReturned_decides (past : Bool) :
    f.Decides (f.walkReturned request past).1 (f.walkReturned request past).2 := by
  cases h : f.runningOf request with
  | none => simp [walkReturned,h,decides_refl]
  | some running =>
    have hrunning := (runningOf_eq_some.mp h).1
    simp only [walkReturned,h]
    split
    next harmed =>
      split <;> exact ⟨disarm_underWay f running hrunning harmed,rfl⟩
    · exact decides_refl f

theorem publishedJudgingNothing_decides (got : Bool) (thenAbandon : Option ReaderRules.Reason) :
    (f.mark request got).Decides (f.publishedJudgingNothing request got thenAbandon).1
      (f.publishedJudgingNothing request got thenAbandon).2 := by
  cases h : f.runningOf request with
  | none =>
    simp [publishedJudgingNothing,publication,mark,h,decides_refl]
  | some running =>
    simp only [publishedJudgingNothing,publication,mark,h]
    cases thenAbandon with
    | none => exact decides_refl _
    | some reason => exact abandon_decides _ reason

theorem flying_mark (got : Bool) :
    flying (f.mark request got)=(flying f).map fun (other,group,published) =>
      (other,group,published || (got && decide (request=other))) := by
  cases hrunning : f.running with
  | none => simp [mark,runningOf,flying,underWay,hrunning]
  | some running =>
    by_cases hrequest : running.request=request
    · have hof := runningOf_eq_some.mpr ⟨hrunning,hrequest⟩
      cases got <;> simp [mark,hof,setRunning,flying,underWay,hrunning,hrequest]
    have hof : f.runningOf request=none := by
      simp [runningOf,hrunning,Option.filter,hrequest]
    simp [mark,hof,flying,underWay,hrunning,Ne.symm hrequest]

end Decisions

theorem flying_of_running {f : InFlight Current} {running : Running Current}
    (h : f.running=some running) : flying f =
      some (running.request,running.item.group,decide (running.walk=.published)) := by
  simp [flying,underWay,h]

variable {st : Step}

theorem begins_of_decided {f' : InFlight Current} {decision : Decision Current}
    {t : Reducer} {marked : InFlight Current} (now : Now) (hreads : Reads s t)
    (hmarked : flying marked=(flying t.flight).map fun (request,group,published) =>
      (request,group,published || publishedBy st request))
    (hst : ∀ request, finishedBy st request=false)
    (hnone : (∀ request group published, flying s.flight=some (request,group,published) →
      (published || publishedBy st request)=false) → t.trying=s.trying)
    (h : marked.Decides f' decision) :
    Begins s st ({t with flight := f'}.decided decision now).1 := by
  have hcases := decided_trying h t now
  generalize ({t with flight := f'}.decided decision now).1=left at hcases
  obtain ⟨rows,hrows,htrying⟩ := hreads
  have hfields := htrying
  simp only [trying,Prod.mk.injEq] at hfields
  obtain ⟨hflying,hafter,hgroups,hround⟩ := hfields
  rw [hflying] at hmarked
  rw [hafter,hgroups,hround] at hcases
  rcases hcases with hstays | ⟨request,group,published,hfound,hends⟩
  · obtain ⟨hqueue,hasked⟩ := queue_of_trying hstays
    refine ⟨?_,hasked⟩
    rw [hqueue,hmarked,Option.map_map]
    exact .stays hrows
  rw [hmarked] at hfound
  obtain ⟨⟨request',group',published'⟩,hflies,heq⟩ := Option.map_eq_some_iff.mp hfound
  simp only [Prod.mk.injEq] at heq
  obtain ⟨rfl,rfl,rfl⟩ := heq
  obtain ⟨hqueue,hasked⟩ := queue_of_trying hends
  refine ⟨?_,hasked⟩
  rw [hqueue]
  refine .abandoned hflies (hst request') hrows fun hfalse => ?_
  have hsame := hnone (fun request group published hother => by
    rw [hflies] at hother
    cases hother
    exact hfalse)
  have hlength := congrArg (fun trying => trying.2.1.length) (htrying.symm.trans hsame)
  simpa [trying] using hlength

theorem pushAll_trying (entries : List Entry) (s : Reducer) :
    (pushAll entries s).1.trying=s.trying := by
  obtain ⟨intake,queries,heq⟩ := pushAll_eq entries s
  rw [heq]
  rfl

theorem destroySeen_trying (item : Item) : (s.destroySeen item).trying=s.trying := by
  unfold destroySeen
  split
  · split
    next window _ =>
      simp only [trying]
      rw [flying_withItem _ (fun current =>
        {current with destroyed := window::current.destroyed}) fun _ => rfl]
    · rfl
  · rfl

theorem gapBound_trying : s.gapBound.1.trying=s.trying := by
  obtain ⟨gap,requests,heq⟩ := gapBound_eq s
  rw [heq]
  rfl

theorem onSome_commit_reads (given : Option Change) (request : Request) (now : Now) :
    Reads s (onSome given (fun change => commit request change now) s).1 := by
  cases given with
  | none => exact .refl s
  | some change => exact commit_reads request change now

theorem gapBoundTested_reads (related : Bool) (title : Option Change)
    (now : Now) : Reads s (s.gapBoundTested request related title now).1 := by
  unfold gapBoundTested
  split
  · exact .refl s
  next record _ =>
    split
    · refine (onSome_commit_reads title request now).trans (.of_trying ?_)
      simp only [andThen,queueBound]
      split <;> rfl
    · exact .of_trying rfl

theorem finished_begins (reported panicked : Bool) (cut : Option Cut) (now : Now) :
    Begins s (.input (.finished request reported panicked cut))
      (s.finished request reported panicked cut now).1 := by
  unfold finished
  split
  · exact (Reads.refl s).begins _
  next running hof =>
    obtain ⟨hrunning,hrequest⟩ := runningOf_eq_some.mp hof
    simp only
    split
    · have hqueue : ∀ cut, (s.dispatchFinish cut).1.tryQueue =
          {s.tryQueue with after := []++s.after} ∧
          (s.dispatchFinish cut).1.idleQuery=s.idleQuery := by
        intro cut
        unfold dispatchFinish
        simp [handOn,hrunning,tryQueue,flying,underWay]
      refine ⟨?_,(hqueue _).2⟩
      rw [(hqueue _).1]
      exact .stays (by simp)
    have htrying := ended_trying (s := {s with flight := (s.flight.endOf request).1})
      running.item (reported || decide (running.walk=.published)) now
    have hst : finishedBy (.input (.finished request reported panicked cut)) running.request =
        true := by simp [finishedBy,hrequest]
    have hstarts := Starts.finished (flying_of_running hrunning) hst
    have hover : reportedBy (.input (.finished request reported panicked cut))
        running.request=reported := by simp [reportedBy,hrequest]
    rw [hover] at hstarts
    have hend : flying (s.flight.endOf request).1=none := by
      simp [endOf,hof,flying,underWay]
    rw [hend] at htrying
    obtain ⟨hqueue,hround⟩ := queue_of_trying htrying
    refine ⟨?_,hround⟩
    rw [hqueue]
    exact hstarts

theorem begins_of_trying (h : s'.trying=s.trying) : Begins s st s' := (Reads.of_trying h).begins st

/-- No input but its end ends a program, and none but its publication publishes its walk. -/
theorem map_unpublished (hst : ∀ request, publishedBy st request=false)
    (flying : Option (Request × Option GroupTry × Bool)) :
    flying=flying.map fun (request,group,published) =>
      (request,group,published || publishedBy st request) := by
  cases flying with
  | none => rfl
  | some row => simp [hst]

theorem accepts_flying : s.accepts request =
    (flying s.flight).any fun (other,_,published) => decide (other=request) && !published := by
  unfold accepts InFlight.accepts flying InFlight.underWay
  cases s.flight.running <;> simp

theorem published_begins (change : Option Change)
    (thenAbandon : Option ReaderRules.Reason) (now : Now) :
    Begins s (.input (.published request change thenAbandon))
      (s.published request change thenAbandon now).1 := by
  unfold published
  simp only [andThen]
  have hreads := onSome_commit_reads (s := s) (change.filter fun _ => s.accepts request) request now
  generalize hleft : (onSome (change.filter fun _ => s.accepts request)
    (fun change => commit request change now) s).1=t at hreads ⊢
  generalize hgot : change.filter (fun _ => s.accepts request)=got at hleft ⊢
  have hflying : flying t.flight=flying s.flight := by
    obtain ⟨rows,hrows,htrying⟩ := hreads
    exact (Prod.mk.inj htrying).1
  have hmarked : flying (t.flight.mark request got.isSome)=(flying t.flight).map
      fun (other,group,published) => (other,group,published ||
        publishedBy (.input (.published request change thenAbandon)) other) := by
    rw [flying_mark,hflying,← hgot,accepts_flying]
    cases flying s.flight with
    | none => rfl
    | some row =>
      obtain ⟨other,group,published⟩ := row
      by_cases hrequest : other=request
      · subst hrequest
        cases change <;> cases published <;> simp [publishedBy,Option.filter]
      · cases change <;> simp [publishedBy,Option.filter,hrequest,Ne.symm hrequest]
  have hnone : (∀ other group published, flying s.flight=some (other,group,published) →
      (published || publishedBy (.input (.published request change thenAbandon)) other)=false) →
      t.trying=s.trying := by
    intro hfalse
    have hgone : got=none := by
      rw [← hgot,accepts_flying]
      cases hrow : flying s.flight with
      | none => cases change <;> rfl
      | some row =>
        obtain ⟨other,group,published⟩ := row
        have hfalse := hfalse other group published hrow
        by_cases hrequest : other=request
        · subst hrequest
          cases change with
          | none => rfl
          | some change => simp [publishedBy] at hfalse
        · cases change <;> simp [Option.filter,hrequest]
    rw [← hleft,hgone]
    rfl
  split
  · exact begins_of_decided now hreads hmarked (fun _ => rfl) hnone
      (publishedJudgingNothing_decides t.flight request got.isSome thenAbandon)
  · exact begins_of_decided now hreads hmarked (fun _ => rfl) hnone
      (published_decides t.flight request got.isSome thenAbandon now.shellUs)

theorem takeIn_begins (input : Input) (now : Now) :
    Begins s (.input input) (s.takeIn input now).1 := by
  cases input with
  | entry entry source =>
    exact begins_of_trying ((pushAll_trying _ _).trans (destroySeen_trying entry.item))
  | withoutListener | forwardingEnded through => exact begins_of_trying (pushAll_trying _ _)
  | cancel requestId =>
    have hspeaks := Speaks.onSome (fun trace => send_speaks (replyTo requestId trace .notStarted))
      (s.intake.cancel requestId).2
    exact begins_of_trying (hspeaks.trying _)
  | commit request change =>
    unfold takeIn
    simp only
    split
    · exact (commit_reads request change now).begins _
    · exact begins_of_trying rfl
  | armed request bound =>
    refine begins_of_trying ?_
    simp only [takeIn,trying,flying,(armed_decides s.flight request bound).1]
  | walkReturned request past =>
    exact begins_of_decided now (Reads.refl s) (map_unpublished (fun _ => rfl) _) (fun _ => rfl)
      (fun _ => rfl) (walkReturned_decides s.flight request past)
  | finished request reported panicked cut =>
    exact finished_begins request reported panicked cut now
  | released nodes anchors objects =>
    exact begins_of_trying ((subscriptionEffects_speaks _ now).trying _)
  | gapBound => exact begins_of_trying gapBound_trying
  | gapBoundTested request related title =>
    exact (gapBoundTested_reads request related title now).begins _
  | judged request verdict window =>
    unfold takeIn
    simp only
    split
    · exact begins_of_trying rfl
    have hspeaks := Speaks.onSome (hangSeen_speaks request)
      (if (s.flight.runningOf request).isSome=true ∧ verdict=some .hung then window else none)
    exact begins_of_decided now (.of_trying (hspeaks.trying s))
      (map_unpublished (fun _ => rfl) _) (fun _ => rfl) (fun _ => hspeaks.trying s)
      (judged_decides _ request verdict)
  | published request change thenAbandon => exact published_begins request change thenAbandon now
  | _ => exact begins_of_trying rfl

theorem wake_eq (s : Reducer) (now : Now) : ∃ flight decision, s.flight.Decides flight decision ∧
    ((s.wake now).1=({s with flight}.decided decision now).1.gapBound.1 ∨
      (s.wake now).1=({s with flight}.decided decision now).1) := by
  unfold wake
  simp only [andThen]
  generalize hticked : (if s.stopping=true then _ else _)=ticked
  refine ⟨ticked.1,ticked.2,?_,?_⟩
  · rw [← hticked]
    split
    · exact decides_refl _
    · exact judge_decides _ _
  · split
    · exact .inl rfl
    · exact .inr rfl

theorem wake_begins (now : Now) : Begins s .tick (s.wake now).1 := by
  obtain ⟨flight,decision,hdecides,heq⟩ := wake_eq s now
  have hunpublished : ∀ request, publishedBy .tick request=false := fun _ => rfl
  have hstarts := begins_of_decided now (Reads.refl s) (map_unpublished hunpublished _)
    (fun _ => rfl) (fun _ => rfl) hdecides
  obtain heq | heq := heq
  · obtain ⟨hqueue,hround⟩ := queue_of_trying gapBound_trying
    exact heq ▸ ⟨hqueue ▸ hstarts.1,hround.trans hstarts.2⟩
  · exact heq ▸ hstarts

theorem start_begins (s : Reducer) (st : Step) (now : Now) : Begins s st (s.start st now).1 := by
  cases st with
  | input input => exact takeIn_begins input now
  | tick => exact wake_begins now

variable {out : Reduced}

theorem Emits.attempts {sent : OutpostToCore → Prop} (h : Emits sent out) : attempts out.2=[] := by
  refine flatMap_eq_nil_iff.mpr fun program hprogram => ?_
  obtain ⟨effect,heffect,hsome⟩ := mem_filterMap.mp hprogram
  rcases h effect heffect with hplain | ⟨message,_,rfl⟩
  · cases effect <;> cases hsome
    obtain ⟨request,window,facts,work,waiting⟩ := program
    cases work <;> first | rfl | cases hplain
  · cases hsome

section Pump

variable {calm : Option Nat}

theorem dispatch_queue (work : Work) (deadline : Nat) (window : Option Window)
    (running : Option (RequestId × TraceId)) (group : Option GroupTry) (now : Now) :
    (s.dispatch work deadline window running group now).1.tryQueue =
        ⟨some group,s.after,s.focusGroups⟩ ∧
      attempts (s.dispatch work deadline window running group now).2=work.tried := by
  have hwatch : (s.replaceWatch work now).1.trying=s.trying ∧
      attempts (s.replaceWatch work now).2=[] := by
    unfold replaceWatch
    split
    · have hspeaks := Speaks.onSome (answerWatch_speaks now)
        (s.facts.follow.watch.endKept "the next caret key replaced it").2
      exact ⟨hspeaks.trying _,hspeaks.attempts _⟩
    · exact ⟨rfl,rfl⟩
  simp only [trying,Prod.mk.injEq] at hwatch
  obtain ⟨⟨_,hafter,hgroups,_⟩,hattempts⟩ := hwatch
  unfold dispatch
  simp only [andThen,attempts_append,hattempts]
  refine ⟨?_,?_⟩
  · simp only [startWork,tryQueue,hafter,hgroups]
    rfl
  · simp [startWork,attempts,programs,Effect.program]

theorem dispatchEntry_queue (entry : Entry) (handling : Handling) (batch : Nat)
    (group : Option GroupTry) (now : Now) :
    (s.dispatchEntry entry handling batch group now).1.tryQueue =
        ⟨some group,s.after,s.focusGroups⟩ ∧
      attempts (s.dispatchEntry entry handling batch group now).2=Row.tried (entry,group) := by
  obtain ⟨hqueue,hattempts⟩ := dispatch_queue (.entry entry handling
    batch (group.map fun group => ⟨group.number,group.rank⟩)) (budget entry now s.handling).1
    (windowOf (classify entry.item).2.2) (budget entry now s.handling).2 group now
  refine ⟨hqueue,hattempts.trans ?_⟩
  cases group <;> rfl

theorem running_of_unsettled (h : s.settled=false) : s.flight.running=none := by
  simp only [settled,busy,Bool.or_eq_false_iff] at h
  exact Option.isNone_iff_eq_none.mp (by simpa using h.1.1)

theorem idle_queue (h : s.settled=false) : s.tryQueue=⟨none,s.after,s.focusGroups⟩ := by
  simp [tryQueue,flying,underWay,running_of_unsettled h]

theorem Speaks.path (h : Speaks step) (s : Reducer) :
    Path calm s.tryQueue (step s).1.tryQueue (Outpost.attempts (step s).2) := by
  rw [tryQueue_eq (h.trying s),h.attempts s]
  exact .refl

theorem answerIdle_queue : s.answerIdle.1.flight=s.flight ∧
    s.answerIdle.1.tryQueue=s.tryQueue ∧ attempts s.answerIdle.2=[] := by
  unfold answerIdle
  split
  · refine ⟨rfl,rfl,?_⟩
    cases s.idleQuery <;> rfl
  · exact ⟨rfl,rfl,rfl⟩

theorem barrier_queue (asker : Asker) (behindNoted : Bool) (entry : Entry) :
    (s.barrier asker behindNoted entry).1.flight=s.flight ∧
      (s.barrier asker behindNoted entry).1.tryQueue=s.tryQueue ∧
      attempts (s.barrier asker behindNoted entry).2=[] := by
  unfold barrier
  split
  · exact ⟨rfl,rfl,rfl⟩
  cases asker with
  | round round => exact answerIdle_queue
  | settle id => exact ⟨rfl,rfl,rfl⟩

theorem path_dispatched {t : Reducer} (h : s.settled=false) (ht : t.tryQueue=s.tryQueue) :
    Path calm s.tryQueue ⟨some none,t.after,t.focusGroups⟩ [] := by
  have hflight : s.tryQueue.flight=none := by rw [idle_queue h]
  have hmove : {s.tryQueue with flight := some none}=⟨some none,t.after,t.focusGroups⟩ := by
    rw [← ht]
    rfl
  rw [← hmove]
  exact .one (.dispatched hflight)

theorem run_attempts (s : Reducer) (entry : Entry) (batch : Nat) (now : Now) :
    attempts (s.run entry batch now).2=[] := by
  have hruns := run_runs s entry batch now
  generalize s.run entry batch now=out at hruns ⊢
  cases hruns with
  | barrier hitem => exact (barrier_queue _ _ entry).2.2
  | dispatched hitem | read hitem hread => exact (dispatchEntry_queue _ _ _ _ now).2
  | passed hitem | releasing hitem => rfl
  | replied hitem => exact (send_speaks _).attempts s

theorem run_path (entry : Entry) (batch : Nat) (now : Now) (h : s.settled=false) :
    Path calm s.tryQueue (s.run entry batch now).1.tryQueue [] := by
  have hdispatched : ∀ (t : Reducer) (handled : Entry), t.tryQueue=s.tryQueue →
      Path calm s.tryQueue (t.dispatchEntry handled .run batch none now).1.tryQueue [] := by
    intro t handled ht
    rw [(dispatchEntry_queue handled .run batch none now).1]
    exact path_dispatched h ht
  have hruns := run_runs s entry batch now
  generalize s.run entry batch now=out at hruns ⊢
  cases hruns with
  | barrier hitem =>
    rw [(barrier_queue _ _ entry).2.1]
    exact .refl
  | dispatched hitem => exact hdispatched s entry rfl
  | read hitem hread => exact hdispatched _ _ rfl
  | passed hitem | releasing hitem => exact .refl
  | replied hitem =>
    rw [tryQueue_eq ((send_speaks _).trying s)]
    exact .refl

theorem group_plain (hs : Keyed s.intake) {entries : List Entry} {marks : Marks} {batch : Nat}
    (hnext : (s.intake.next marks).2=some (.focus entries,batch)) :
    ∀ entry∈entries, entry.item.isGapRead=false := by
  intro entry hentry
  rcases next_handed hnext with ⟨rest,hbatch⟩ | ⟨noted,_,heq⟩
  · have hplanned := (filled_keyed hs marks).planned (.focus entries)
      (by rw [hbatch]; exact mem_cons_self) entry hentry
    exact hplanned.resolve_left (by simp)
  · cases heq

theorem handle_focus (newest : Entry) (older : List Entry) (batch : Nat) (now : Now)
    (hplain : newest.item.isGapRead=false) :
    (s.handle (.focus (newest::older)) batch now).1.tryQueue =
        ⟨some (some ⟨s.focusGroups+1,0,batch,older⟩),s.after,s.focusGroups+1⟩ ∧
      attempts (s.handle (.focus (newest::older)) batch now).2=[(s.focusGroups+1,newest)] := by
  obtain ⟨hqueue,hattempts⟩ := dispatchEntry_queue newest (.tried 0) batch
    (some ⟨s.focusGroups+1,0,batch,older⟩) now
  have htried : Row.tried (newest,some ⟨s.focusGroups+1,0,batch,older⟩) =
      [(s.focusGroups+1,newest)] := by simp [Row.tried,hplain]
  exact ⟨hqueue,hattempts.trans htried⟩

variable {now : Now}

theorem turn_path (hs : Keyed s.intake) (h : s.turn now=some out) :
    Path calm s.tryQueue out.1.tryQueue (attempts out.2) := by
  have hprogram : ∀ (t : Reducer) (work : Work) (deadline : Nat), t.tryQueue=s.tryQueue →
      s.settled=false → work.tried=[] → Path calm s.tryQueue
        (t.dispatch work deadline none none none now).1.tryQueue
        (attempts (t.dispatch work deadline none none none now).2) := by
    intro t work deadline ht hsettled hwork
    obtain ⟨hqueue,hattempts⟩ := dispatch_queue work deadline none none none now
    rw [hqueue,hattempts,hwork]
    exact path_dispatched hsettled ht
  cases turn_turned h with
  | attempted hsettled => exact hprogram {s with facts := _} (.owed _) _ rfl hsettled rfl
  | @popped entry group after hsettled hafter =>
    obtain ⟨hqueue,hattempts⟩ := dispatchEntry_queue entry
      (group.elim .run fun group => .tried group.rank)
      (group.elim s.intake.batchNumber (·.batch)) group now
    have hidle := idle_queue hsettled
    change Path calm s.tryQueue ({s with after}.dispatchEntry _ _ _ _ now).1.tryQueue
      (attempts ({s with after}.dispatchEntry _ _ _ _ now).2)
    rw [hqueue,hattempts,hidle,hafter]
    exact .one (@Moves.popped calm _ (entry,group) after rfl rfl)
  | dropped hsettled => exact hprogram {s with toDrop := false} .drop _ rfl hsettled rfl
  | @taken planned batch hsettled hafter hnext =>
    have hhanded : s.handed.settled=false := hsettled
    have hidle := idle_queue hhanded
    have hsame : s.handed.tryQueue=s.tryQueue := rfl
    cases planned with
    | run entry =>
      change Path calm s.handed.tryQueue _ (attempts (s.handed.run entry batch now).2)
      rw [run_attempts]
      exact run_path entry batch now hhanded
    | menu entry =>
      obtain ⟨hqueue,hattempts⟩ := dispatchEntry_queue entry .menu batch none now
      change Path calm _ (s.handed.dispatchEntry entry .menu batch none now).1.tryQueue
        (attempts (s.handed.dispatchEntry entry .menu batch none now).2)
      rw [hqueue,hattempts]
      exact path_dispatched hhanded rfl
    | focus entries =>
      cases entries with
      | nil =>
        have hmove : Moves calm s.handed.tryQueue
            {s.handed.tryQueue with groups := s.handed.tryQueue.groups+1} [] :=
          .passed (by rw [hidle]) hafter
        exact .one hmove
      | cons newest older =>
        have hplain := group_plain hs hnext
        obtain ⟨hqueue,hattempts⟩ := handle_focus newest older batch now
          (hplain newest mem_cons_self)
        have hrows : s.handed.after=[] := hafter
        rw [hqueue,hattempts,← hsame,hidle,hrows]
        exact .one (.planned rfl rfl hplain)
  | @watchEnded watch answer hsettled hafter hnext hreach =>
    exact (answerWatch_speaks now answer).path (s.handed.withWatch watch)
  | @polled watch hsettled hafter hnext hreach =>
    have hpath := hprogram (s.handed.withWatch watch) .pollRead s.handling rfl hsettled rfl
    exact hpath

end Pump

/-- The group whose unpublished try the step abandons. -/
def forsakes (s : Reducer) (st : Step) (now : Now) : Option GroupTry :=
  s.flight.running.bind fun running =>
    if (s.start st now).1.busy || finishedBy st running.request ||
        decide (running.walk=.published) || publishedBy st running.request then none
    else running.item.group

/-- The step abandons no unpublished try of group `number` that has older entries while a gap's
read waits. -/
def calm (number : Nat) (s : Reducer) (st : Step) (now : Now) : Bool :=
  (s.forsakes st now).all fun group => decide (group.number≠number) ||
    group.older.isEmpty || s.after.all fun row => !row.1.item.isGapRead

def calmRun (number : Nat) : List (Step × Now) → Reducer → Bool
  | [],_ => true
  | timed::steps,s => s.calm number timed.1 timed.2 &&
      calmRun number steps (s.step timed.1 timed.2).1

theorem busy_iff_flight : s.busy=s.tryQueue.flight.isSome := by
  unfold busy tryQueue flying underWay
  cases s.flight.running <;> rfl

theorem Starts.path {c : Option Nat} (h : Starts s st (s.start st now).1.tryQueue)
    (hcalm : ∀ number∈c, s.calm number st now=true) :
    Path c s.tryQueue (s.start st now).1.tryQueue [] := by
  have hbusy := busy_iff_flight (s := (s.start st now).1)
  generalize (s.start st now).1.tryQueue=q at h hbusy
  have hflight : ∀ request group published, flying s.flight=some (request,group,published) →
      s.tryQueue.flight=some group := by
    intro request group published hflying
    simp [tryQueue,hflying]
  cases h with
  | stays hrows => exact .one (.reads hrows)
  | finished hflying hst => exact .one (.finished (hflight _ _ _ hflying))
  | @abandoned request group published rows hflying hst hrows hnone =>
    refine Path.step (.one (.reads hrows)) (.abandoned (hflight _ _ _ hflying) ?_)
    intro hunpublished g hgroup hnumber holder row hrow
    obtain rfl := hnone hunpublished
    have hcalm := hcalm g.number hnumber
    obtain ⟨running,hrunning,hfields⟩ : ∃ running, s.flight.running=some running ∧
        (running.request,running.item.group,decide (running.walk=.published)) =
          (request,group,published) := by
      unfold flying underWay at hflying
      cases hrunning : s.flight.running with
      | none => rw [hrunning] at hflying; cases hflying
      | some running =>
        rw [hrunning] at hflying
        exact ⟨running,rfl,Option.some.inj hflying⟩
    obtain ⟨rfl,rfl,rfl⟩ := hfields
    have hforsakes : s.forsakes st now=some g := by
      obtain ⟨hwalk,hpublish⟩ := Bool.or_eq_false_iff.mp hunpublished
      have hidle : (s.start st now).1.busy=false := hbusy
      simp [forsakes,hrunning,hidle,hst,hpublish,hgroup,of_decide_eq_false hwalk]
    rw [calm,hforsakes] at hcalm
    simp only [Option.all_some,Bool.or_eq_true,List.isEmpty_iff,all_eq_true,ne_eq,not_true_eq_false,
      decide_false,Bool.false_eq_true,false_or,Bool.not_eq_true'] at hcalm
    exact (hcalm.resolve_left holder) row hrow

theorem pumpFor_of_none (h : s.turn now=none) (m : Nat) : pumpFor now m s=(s,[]) := by
  cases m with
  | zero => rfl
  | succ m =>
    unfold pumpFor
    rw [h]

theorem pumpFor_path {c : Option Nat} (now : Now) (fuel : Nat) (hs : Keyed s.intake) :
    Path c s.tryQueue (pumpFor now fuel s).1.tryQueue (attempts (pumpFor now fuel s).2) ∧
      Keyed (pumpFor now fuel s).1.intake := by
  induction fuel generalizing s with
  | zero => exact ⟨.refl,hs⟩
  | succ fuel ih =>
    unfold pumpFor
    cases hturn : s.turn now with
    | none => exact ⟨.refl,hs⟩
    | some out =>
      obtain ⟨hpath,hkeyed⟩ := ih (turn_keyed hturn hs)
      simp only [andThen,attempts_append]
      exact ⟨(turn_path hs hturn).trans hpath,hkeyed⟩

theorem changed_attempts (before : Reducer) (out : Reduced) :
    attempts (changed before out).2=attempts out.2 := by
  have hmarks : attempts [.marks out.1.facts.marks]=[] := rfl
  have htimer : attempts [.gapTimer out.1.intake.gap.dueUs]=[] := rfl
  unfold changed
  split <;> split <;> simp only [attempts_append,hmarks,htimer,nil_append,append_nil]

theorem step_attempts (s : Reducer) (st : Step) (now : Now) :
    attempts (s.step st now).2=attempts ((s.start st now).1.pump now).2 ∧
      (s.step st now).1.tryQueue=((s.start st now).1.pump now).1.tryQueue ∧
      (s.step st now).1.intake=((s.start st now).1.pump now).1.intake := by
  rw [step_eq,changed_attempts]
  unfold settle
  simp only [andThen,attempts_append,(start_emits s st now).attempts,answerIdle_queue.2.2,
    nil_append,
    append_nil]
  exact ⟨trivial,answerIdle_queue.2.1,answerIdle_intake _⟩

theorem start_keyed (st : Step) (now : Now) (hs : Keyed s.intake) :
    Keyed (s.start st now).1.intake := (start_acts s st now).keyed hs

/-- A step moves the tries, the intake keyed before and after it. -/
theorem step_path {c : Option Nat} (st : Step) (now : Now) (hs : Keyed s.intake)
    (hcalm : ∀ number∈c, s.calm number st now=true) :
    Path c s.tryQueue (s.step st now).1.tryQueue (attempts (s.step st now).2) ∧
      Keyed (s.step st now).1.intake := by
  obtain ⟨hattempts,hqueue,hintake⟩ := step_attempts s st now
  rw [hattempts,hqueue,hintake]
  obtain ⟨hpath,hkeyed⟩ := pumpFor_path now (s.start st now).1.turns (start_keyed st now hs)
  exact ⟨((start_begins s st now).1.path hcalm).trans hpath,hkeyed⟩

theorem runs_cons (timed : Step × Now) (steps : List (Step × Now)) :
    runs (timed::steps) s=andThen (s.step timed.1 timed.2) (runs steps) := rfl

theorem runs_path {c : Option Nat} (steps : List (Step × Now)) (hs : Keyed s.intake)
    (hcalm : ∀ number∈c, calmRun number steps s=true) :
    Path c s.tryQueue (runs steps s).1.tryQueue (attempts (runs steps s).2) ∧
      Keyed (runs steps s).1.intake := by
  induction steps generalizing s with
  | nil => exact ⟨.refl,hs⟩
  | cons timed steps ih =>
    have hfirst (number : Nat) (hc : number∈c) : s.calm number timed.1 timed.2=true :=
      (Bool.and_eq_true _ _ ▸ hcalm number hc).1
    obtain ⟨hpath,hkeyed⟩ := step_path timed.1 timed.2 hs hfirst
    obtain ⟨hrest,hkeyed'⟩ := ih hkeyed fun number hc => (Bool.and_eq_true _ _ ▸ hcalm number hc).2
    rw [runs_cons]
    simp only [andThen,attempts_append]
    exact ⟨hpath.trans hrest,hkeyed'⟩

theorem new_keyed : Keyed new.intake :=
  ⟨fun w hw => absurd hw not_mem_nil,fun p hp => absurd hp not_mem_nil,by simp [new,Intake.new]⟩

theorem new_formed : new.tryQueue.Formed :=
  ⟨pairwise_singleton _ _,by simp [new,tryQueue,flying,InFlight.underWay,InFlight.new],
    by simp [new,tryQueue,flying,InFlight.underWay,InFlight.new,carried],by simp [new,tryQueue]⟩

theorem new_clear : new.tryQueue.Clear := ⟨fun h => absurd h (by decide),List.Pairwise.nil⟩

theorem turn_single (h : s.turn now=some out) :
    attempts out.2=[] ∨ (attempts out.2).length=1 ∧ out.1.busy=true := by
  have hentry : ∀ (t : Reducer) (entry : Entry) (handling : Handling) (batch : Nat)
      (group : Option GroupTry),
      attempts (t.dispatchEntry entry handling batch group now).2=[] ∨
        (attempts (t.dispatchEntry entry handling batch group now).2).length=1 ∧
          (t.dispatchEntry entry handling batch group now).1.busy=true := by
    intro t entry handling batch group
    rw [(dispatchEntry_queue entry handling batch group now).2]
    unfold Row.tried
    split
    · exact .inl rfl
    split
    · exact .inl rfl
    · exact .inr ⟨rfl,rfl⟩
  cases turn_turned h with
  | attempted hsettled => exact .inl (dispatch_queue _ _ _ _ _ now).2
  | popped hsettled hafter => exact hentry _ _ _ _ _
  | dropped hsettled | polled hsettled hafter hnext hreach =>
    exact .inl (dispatch_queue _ _ _ _ _ now).2
  | @taken planned batch hsettled hafter hnext =>
    cases planned with
    | run entry => exact .inl (run_attempts s.handed entry batch now)
    | menu entry => exact hentry _ _ _ _ _
    | focus entries =>
      cases entries with
      | nil => exact .inl rfl
      | cons newest older => exact hentry _ _ _ _ _
  | watchEnded hsettled hafter hnext hreach => exact .inl ((answerWatch_speaks now _).attempts _)

theorem pumpFor_single (now : Now) (fuel : Nat) :
    attempts (pumpFor now fuel s).2=[] ∨
      (attempts (pumpFor now fuel s).2).length=1 ∧ s.busy=false ∧
        (pumpFor now fuel s).1.busy=true := by
  induction fuel generalizing s with
  | zero => exact .inl rfl
  | succ fuel ih =>
    unfold pumpFor
    cases hturn : s.turn now with
    | none => exact .inl rfl
    | some out =>
      have hidle : s.busy=false := by
        by_contra hbusy
        rw [turn_of_settled (by simp [settled,hbusy]) now] at hturn
        cases hturn
      simp only [andThen,attempts_append]
      rcases turn_single hturn with hnone | ⟨hone,hbusy⟩
      · rw [hnone,nil_append]
        exact ih.imp_right fun h => ⟨h.1,hidle,h.2.2⟩
      · rw [pumpFor_of_none (turn_of_settled (by simp [settled,hbusy]) now)]
        exact .inr ⟨by simpa using hone,hidle,hbusy⟩

/-- A step tries one entry at most, when no program is in flight, and it is in flight then. -/
theorem step_single (s : Reducer) (st : Step) (now : Now) :
    attempts (s.step st now).2=[] ∨
      (attempts (s.step st now).2).length=1 ∧ (s.start st now).1.busy=false ∧
        (s.step st now).1.busy=true := by
  obtain ⟨hattempts,hqueue,_⟩ := step_attempts s st now
  rw [hattempts,busy_iff_flight (s := (s.step st now).1),hqueue,← busy_iff_flight]
  exact pumpFor_single now _

def takes (s : Reducer) : Option (Planned × Nat) :=
  if s.settled || s.facts.follow.owed.any (fun owed => owed.attempting.isNone) ||
      !s.after.isEmpty || s.toDrop then none
  else (s.intake.next s.facts.marks.toMarks).2

theorem turn_takes {planned : Planned} {batch : Nat} (h : s.takes=some (planned,batch))
    (now : Now) : s.turn now=some (s.handed.handle planned batch now) ∧ s.settled=false ∧
      s.after=[] ∧ (s.intake.next s.facts.marks.toMarks).2=some (planned,batch) := by
  unfold takes at h
  split at h
  · cases h
  next hnot =>
    simp only [Bool.or_eq_true,not_or,Bool.not_eq_true,Bool.not_eq_false',List.isEmpty_iff] at hnot
    obtain ⟨⟨⟨hsettled,howed⟩,hafter⟩,hdrop⟩ := hnot
    have hfilter : s.facts.follow.owed.filter (fun owed => owed.attempting.isNone)=none := by
      cases hwork : s.facts.follow.owed with
      | none => rfl
      | some owed =>
        rw [hwork] at howed
        simp only [Option.any_some] at howed
        simp [Option.filter,howed]
    have hsplit : s.intake.next s.facts.marks.toMarks =
        ((s.intake.next s.facts.marks.toMarks).1,some (planned,batch)) := Prod.ext rfl h
    refine ⟨?_,hsettled,hafter,h⟩
    unfold turn
    rw [if_neg (by simp [hsettled]),hfilter,hafter,if_neg (by simp [hdrop])]
    rw [hsplit]
    simp only [handed,hafter]

/-- The step plans the group `number` of `entries`: a turn of its pump takes it. -/
def Plans (s : Reducer) (st : Step) (now : Now) (number : Nat) (entries : List Entry) : Prop :=
  ∃ k batch, (pumpFor now k (s.start st now).1).1.takes=some (.focus entries,batch) ∧
    number=(pumpFor now k (s.start st now).1).1.focusGroups+1

theorem pumpFor_add (now : Now) (k m : Nat) :
    pumpFor now (k+m) s=andThen (pumpFor now k s) (pumpFor now m) := by
  induction k generalizing s with
  | zero =>
    rw [Nat.zero_add]
    rfl
  | succ k ih =>
    rw [Nat.succ_add]
    unfold pumpFor
    cases hturn : s.turn now with
    | none => simp [andThen,pumpFor_of_none hturn]
    | some out =>
      simp only [andThen,ih]
      simp

def tries (number : Nat) (effects : List Effect) : List Entry := ofGroup number (attempts effects)

@[simp] theorem tries_append (number : Nat) (xs ys : List Effect) :
    tries number (xs++ys)=tries number xs++tries number ys := by
  simp [tries]

/-- A step that plans a group tries its newest entry, and leaves the older ones. -/
theorem plans_tries {number : Nat} {newest : Entry} {older : List Entry} (hs : Keyed s.intake)
    (hformed : s.tryQueue.Formed) (h : Plans s st now number (newest::older)) :
    s.focusGroups<number ∧ tries number (s.step st now).2=[newest] ∧
      (s.step st now).1.tryQueue.groups=number ∧
      (s.step st now).1.tryQueue.left number=older := by
  obtain ⟨k,batch,htakes,rfl⟩ := h
  have hkeyed := start_keyed st now hs
  have hpump := pump_ends now hkeyed
  obtain ⟨hattempts,hqueue,_⟩ := step_attempts s st now
  have hstart : Path none s.tryQueue (s.start st now).1.tryQueue [] :=
    (start_begins s st now).1.path nofun
  generalize (s.start st now).1=t at htakes hkeyed hpump hattempts hqueue hstart ⊢
  obtain ⟨hpath,hkeyedThere⟩ := pumpFor_path now k hkeyed
  have hreached := hstart.trans hpath
  have hgroups := (hreached.keeps hformed).2.1
  have hearlier : ofGroup ((pumpFor now k t).1.focusGroups+1) (attempts (pumpFor now k t).2)=[] :=
    hpath.none_later (hstart.keeps hformed).1 (Nat.lt_succ_self _)
  obtain ⟨hturn,hsettled,hafter,hnext⟩ := turn_takes htakes now
  have hplain := group_plain hkeyedThere hnext
  obtain ⟨hleft,htried⟩ := handle_focus (s := (pumpFor now k t).1.handed) newest older batch now
    (hplain newest mem_cons_self)
  generalize hthere : (pumpFor now k t).1=u at *
  have hrows : u.handed.after=[] := hafter
  have hsplit : (t.pump now).1=(u.handed.handle (.focus (newest::older)) batch now).1 ∧
      attempts (t.pump now).2=attempts (pumpFor now k t).2 ++
        attempts (u.handed.handle (.focus (newest::older)) batch now).2 := by
    have hbusy : (u.handed.handle (.focus (newest::older)) batch now).1.settled=true := by
      rfl
    rcases Nat.le_total k t.turns with hle | hle
    · obtain ⟨m,hm⟩ := Nat.exists_eq_add_of_le hle
      have hadd := pumpFor_add (s := t) now k m
      unfold pump at hpump ⊢
      rw [hm] at hpump ⊢
      rw [hadd] at hpump ⊢
      simp only [andThen,hthere] at hpump ⊢
      cases m with
      | zero =>
        change u.turn now=none at hpump
        rw [hturn] at hpump
        cases hpump
      | succ m =>
        unfold pumpFor
        rw [hturn]
        simp only [andThen,pumpFor_of_none (turn_of_settled hbusy now),attempts_append,append_nil]
        exact ⟨trivial,trivial⟩
    · obtain ⟨m,hm⟩ := Nat.exists_eq_add_of_le hle
      rw [hm,pumpFor_add] at hthere
      have hstops := pumpFor_of_none hpump m
      unfold pump at hpump hstops
      simp only [andThen,hstops] at hthere
      rw [hthere,hturn] at hpump
      cases hpump
  have hqueueThere : u.handed.focusGroups=u.focusGroups := rfl
  rw [hqueueThere] at hleft htried
  rw [tries,hattempts,hsplit.2,hqueue,hsplit.1,hleft,htried,ofGroup_append,hearlier,hrows]
  refine ⟨Nat.lt_succ_of_le hgroups,?_,rfl,?_⟩
  · simp [ofGroup]
  · simp [left,carried]

def endsGroup (s : Reducer) (st : Step) (now : Now) : Option Nat :=
  s.flight.running.bind fun running =>
    if !(s.start st now).1.busy && (reportedBy st running.request ||
        (decide (running.walk=.published) || publishedBy st running.request)) then
      running.item.group.map (·.number)
    else none

theorem finishedBy_of_reportedBy {request : Request} (h : reportedBy st request=true) :
    finishedBy st request=true ∧ publishedBy st request=false := by
  unfold reportedBy at h
  split at h
  · exact ⟨(Bool.and_eq_true _ _ ▸ h).2,rfl⟩
  · cases h

theorem left_of_empty {q : TryQueue} (hflight : q.flight=none)
    (h : ∀ row∈q.after, row.left=[]) (number : Nat) : q.left number=[] := by
  unfold TryQueue.left
  split
  · refine flatten_eq_nil_iff.mpr (fun list hlist => ?_)
    rcases mem_cons.mp hlist with rfl | hlist
    · rw [hflight]
      rfl
    · obtain ⟨row,hrow,rfl⟩ := mem_map.mp hlist
      exact h row hrow
  · rfl

theorem start_over {number : Nat} (hformed : s.tryQueue.Formed)
    (hclear : s.tryQueue.groups=number → s.tryQueue.Clear) (h : s.endsGroup st now=some number) :
    number≤(s.start st now).1.tryQueue.groups ∧ (s.start st now).1.tryQueue.left number=[] := by
  obtain ⟨running,hrunning,h⟩ := Option.bind_eq_some_iff.mp h
  split at h
  next hends =>
    obtain ⟨group,hgroup,rfl⟩ := Option.map_eq_some_iff.mp h
    simp only [Bool.and_eq_true,Bool.not_eq_true'] at hends
    obtain ⟨hidle,hover⟩ := hends
    have hflies := flying_of_running hrunning
    rw [hgroup] at hflies
    have hflight : s.tryQueue.flight=some (some group) := by simp [tryQueue,hflies]
    have hnumber : group.number=s.focusGroups := hformed.newest group (by rw [hflight]; simp)
    have hbehind := (hclear hnumber.symm).behind (by rw [hflight]; rfl)
    have hstarts := (start_begins s st now).1
    rw [busy_iff_flight] at hidle
    generalize (s.start st now).1.tryQueue=q at hstarts hidle ⊢
    cases hstarts with
    | stays hrows =>
      rw [hflight] at hidle
      cases hidle
    | @finished request found published hflying hst =>
      cases hflies.symm.trans hflying
      have hpublishes : publishedBy st running.request=false := by
        unfold finishedBy at hst
        split at hst
        · rfl
        · cases hst
      rw [hpublishes,Bool.or_false] at hover
      rw [hover]
      exact ⟨hnumber.le,left_of_empty rfl (finished_over hbehind) _⟩
    | @abandoned request found published rows hflying hst hrows hnone =>
      cases hflies.symm.trans hflying
      have hreports : reportedBy st running.request=false := by
        by_contra hreports
        rw [(finishedBy_of_reportedBy (by simpa using hreports)).1] at hst
        cases hst
      rw [hreports,Bool.false_or] at hover
      rw [hover]
      refine ⟨hnumber.le,left_of_empty rfl (fun row hrow => ?_) _⟩
      rcases mem_append.mp hrow with hrow | hrow
      · exact left_of_read (hrows row hrow)
      · exact hbehind row hrow
  · cases h

theorem runs_append (first second : List (Step × Now)) :
    runs (first++second) s=andThen (runs first s) (runs second) := by
  induction first generalizing s with
  | nil => rfl
  | cons timed first ih =>
    rw [cons_append,runs_cons,runs_cons]
    simp only [andThen,ih,append_assoc]

/-- For every step of every run. The entries of a group it plans are tried newest first, each at
most once. It tries one entry at most, while no program is in flight. And when it ends a try
reported or published, no entry of the group is tried in it or later, if no step before it abandoned
an unpublished try of the group with older entries while a gap's read waited. -/
theorem group_tried_newest_first (before after : List (Step × Now)) (st : Step) (now : Now) :
    (∀ number newest older, Plans (runs before new).1 st now number (newest::older) →
      ∃ tried, tried <+: older ∧
        tries number (runs (before++(st,now)::after) new).2=newest::tried) ∧
    (attempts ((runs before new).1.step st now).2=[] ∨
      (attempts ((runs before new).1.step st now).2).length=1 ∧
        ((runs before new).1.start st now).1.busy=false ∧
        ((runs before new).1.step st now).1.busy=true) ∧
    (∀ number, (runs before new).1.endsGroup st now=some number → calmRun number before new=true →
      tries number (runs ((st,now)::after) (runs before new).1).2=[]) := by
  obtain ⟨hpath,hkeyed⟩ := runs_path (c := none) before new_keyed nofun
  have hformed := (hpath.keeps new_formed).1
  refine ⟨?_,step_single _ st now,?_⟩
  · intro number newest older hplans
    obtain ⟨hlt,htried,hgroups,hleft⟩ := plans_tries hkeyed hformed hplans
    obtain ⟨hstep,hkeyed'⟩ := step_path (c := none) st now hkeyed nofun
    obtain ⟨hrest,_⟩ := runs_path (c := none) after hkeyed' nofun
    have hafter := (hrest.keeps (hstep.keeps hformed).1).2.2 number hgroups.ge
    rw [hleft] at hafter
    refine ⟨tries number (runs after ((runs before new).1.step st now).1).2,
      (prefix_append _ _).trans hafter,?_⟩
    have hbefore : tries number (runs before new).2=[] := hpath.none_later new_formed hlt
    rw [runs_append]
    change tries number ((runs before new).2++(((runs before new).1.step st now).2 ++
      (runs after ((runs before new).1.step st now).1).2))=_
    rw [tries_append,tries_append,hbefore,htried]
    rfl
  · intro number hends hcalm
    obtain ⟨hcalmPath,_⟩ := runs_path (c := some number) before new_keyed fun _ hc =>
      Option.some.inj hc ▸ hcalm
    have hclear := hcalmPath.clear new_formed new_clear
    obtain ⟨hnumber,hleft⟩ := start_over hformed hclear hends
    have hstart : Path none _ ((runs before new).1.start st now).1.tryQueue [] :=
      (start_begins _ st now).1.path nofun
    have hformedStart := (hstart.keeps hformed).1
    obtain ⟨hattempts,hqueue,hintake⟩ := step_attempts (runs before new).1 st now
    obtain ⟨hpump,hkeyedPump⟩ := pumpFor_path now
      ((runs before new).1.start st now).1.turns (start_keyed st now hkeyed)
    obtain ⟨hrest,_⟩ := runs_path (c := none) after (hintake ▸ hkeyedPump) nofun
    rw [runs_cons]
    simp only [andThen,tries,attempts_append,hattempts]
    rw [hqueue] at hrest
    exact (hpump.trans hrest).none_left hformedStart hnumber hleft

def focusEvent (hwnd : Int) (trace : TraceId) : Entry :=
  ⟨.fact (.msaaFocus hwnd objidClient 0) none,trace,1,.untested⟩

/-- Two focus events arrive while a query is handled, after a UIA focus was dropped for no window
above its sender. -/
def twoFocusEvents : List (Step × Now) :=
  [(.input (.entry ⟨.fact (.uiaFocusDropped 1 true true) none,1,0,.untested⟩ .other),⟨0,0,0⟩),
    (.input (.entry ⟨.query ⟨.shell,1⟩ .text,2,0,.untested⟩ .other),⟨0,0,0⟩),
    (.input (.entry (focusEvent 10 3) .listener),⟨1,1,1⟩),
    (.input (.entry (focusEvent 20 4) .listener),⟨1,1,1⟩)]

/-- The query's program ends, and the newest focus event is tried. -/
def queryEnds : Step × Now := (.input (.finished ⟨0,1⟩ false false none),⟨2,2,2⟩)

/-- The first try drops its copy, which asks for the gap's read, and is abandoned at its
deadline. -/
def readThenAbandoned : List (Step × Now) :=
  [(.input (.commit ⟨0,2⟩ {gap := [.copyDropped 20 20 1 4]}),⟨3,3,3⟩),
    (.tick,⟨20000000,20000000,20000000⟩)]

theorem group_tried_newest_first_of_two :
    (∃ tried, tried <+: [focusEvent 10 3] ∧
      tries 1 (runs (twoFocusEvents++queryEnds::readThenAbandoned) new).2 =
        focusEvent 20 4::tried) ∧
    tries 1 (runs [(.input (.finished ⟨0,2⟩ true false none),⟨3,3,3⟩)]
      (runs (twoFocusEvents++[queryEnds]) new).1).2=[] :=
  ⟨(group_tried_newest_first twoFocusEvents readThenAbandoned queryEnds.1 queryEnds.2).1 1
      (focusEvent 20 4) [focusEvent 10 3] ⟨0,2,by decide +kernel,by decide +kernel⟩,
    (group_tried_newest_first (twoFocusEvents++[queryEnds]) []
      (.input (.finished ⟨0,2⟩ true false none)) ⟨3,3,3⟩).2.2 1 (by decide +kernel)
      (by decide +kernel)⟩

/-- The gap's read of an abandoned try ends its group, reported, and the group's older entry is
tried all the same. -/
theorem older_tried_after_report :
    (runs (twoFocusEvents++queryEnds::readThenAbandoned) new).1.endsGroup
        (.input (.finished ⟨1,3⟩ true false none)) ⟨20000001,20000001,20000001⟩=some 1 ∧
      tries 1 (runs [(.input (.finished ⟨1,3⟩ true false none),⟨20000001,20000001,20000001⟩)]
        (runs (twoFocusEvents++queryEnds::readThenAbandoned) new).1).2=[focusEvent 10 3] := by
  decide +kernel

end Reducer

end Verbatim.Outpost
