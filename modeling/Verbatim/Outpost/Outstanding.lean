import Verbatim.Outpost.Fences
import Verbatim.Outpost.Tries

namespace Verbatim.Outpost

open ReaderRules Framework TryQueue List InFlight Reducer Row Option Bool

def Effect.answered? : Effect → Option Nat
  | .send (.idleAnswer round) => some round
  | _ => none

def idleAnswers (effects : List Effect) : List Nat := effects.filterMap Effect.answered?

@[simp] theorem idleAnswers_nil : idleAnswers []=[] := rfl

@[simp] theorem idleAnswers_append (xs ys : List Effect) :
    idleAnswers (xs++ys)=idleAnswers xs++idleAnswers ys := filterMap_append

def WatchChange.isChecked : WatchChange → Bool
  | .checked _ => true
  | _ => false

section Behind

def Row.entries (row : Row) : List Entry := row.1::row.2.elim [] (·.older)

def TryQueue.behind (q : TryQueue) : List Entry :=
  q.after.flatMap entries++q.flight.join.elim [] (·.older)

variable {entry : Entry} {group : Option GroupTry} {after : List Row}

theorem mem_continued {group : GroupTry} (h : entry∈(continued group after).flatMap entries) :
    entry∈after.flatMap entries ∨ entry∈group.older := by
  unfold continued at h
  split at h
  next next older holder =>
    rw [flatMap_append] at h
    refine (mem_append.mp h).imp_right fun h => ?_
    rw [holder]
    simpa [entries] using h
  · exact .inl h

theorem mem_finishedRows {isOver : Bool}
    (h : entry∈(finishedRows group isOver after).flatMap entries) :
    entry∈after.flatMap entries ∨ entry∈group.elim [] (·.older) := by
  unfold finishedRows at h
  split at h
  · exact .inl h
  next group read next rest =>
    split at h
    · split at h
      · refine .inl ?_
        refine (mem_append.mp h).elim (fun h => ?_) (mem_append_right _)
        rw [entries,elim_none,mem_singleton] at h
        rw [h]
        exact mem_append_left _ mem_cons_self
      · rcases mem_append.mp h with h | h
        · rcases mem_cons.mp h with rfl | h
          · exact .inl (mem_append_left _ mem_cons_self)
          · cases next with
            | none => cases h
            | some read => exact .inr h
        · exact .inl (mem_append_right _ h)
    · split at h
      · exact .inl h
      · exact mem_continued h
  · split at h
    · cases h
    · exact mem_continued h

theorem mem_abandonedRows {published : Bool}
    (h : entry∈(abandonedRows group published after).flatMap entries) :
    entry∈after.flatMap entries ∨ entry∈group.elim [] (·.older) := by
  unfold abandonedRows at h
  split at h
  · exact .inl h
  split at h
  · exact .inl h
  · exact mem_continued h

theorem mem_reads {q : TryQueue} {rows : List Row} (hrows : ∀ row∈rows, q.IsRead row)
    (h : entry∈rows.flatMap entries) : entry.item.isGapRead=true := by
  obtain ⟨row,hrow,hentry⟩ := mem_flatMap.mp h
  obtain ⟨hread,hgroup⟩ := hrows row hrow
  rcases mem_cons.mp hentry with rfl | hentry
  · exact hread
  · rw [hgroup] at hentry
    cases hjoin : q.flight.join <;> rw [hjoin] at hentry <;> cases hentry

end Behind

def InHand.arrived (hand : InHand) : Option TraceId :=
  match hand.work with
  | .notedCaret | .gapRead => none
  | _ => hand.trace

def Entry.isOwn (entry : Entry) : Bool := entry.item.isNotedCaret || entry.item.isGapRead

theorem arrived_entry (entry : Entry) (handling : Handling) (batch : Nat)
    (group : Option FocusGroup) (window : Option Window) :
    (InHand.of (.entry entry handling batch group) window).arrived =
      if entry.isOwn then none else some entry.trace := by
  obtain ⟨item,trace,observedAtUs,front⟩ := entry
  cases item <;> rfl

namespace Reducer

variable {A : Type} {s s' : Reducer}

theorem Emits.quiet {sent : OutpostToCore → Prop} {out : Reduced} (h : Emits sent out)
    (hsent : ∀ message, sent message → message.isIdleAnswer=false) : idleAnswers out.2=[] := by
  refine filterMap_eq_nil_iff.mpr fun effect heffect => ?_
  rcases h effect heffect with hplain | ⟨message,hmessage,rfl⟩
  · cases effect with
    | send message => cases message <;> first | rfl | cases hplain
    | _ => rfl
  · have hnot := hsent message hmessage
    cases message <;> first | rfl | cases hnot

theorem answerWatch_quiet (now : Now) (answer : Answer) (s : Reducer) :
    idleAnswers (s.answerWatch now answer).2=[] :=
  (answerWatch_emits now answer s).quiet fun _ (h : False) => h.elim

/-- The program in flight in `s'` was in `s`, with the same in hand; the gap's read is deferred
work still. -/
def Carries (s s' : Reducer) : Prop :=
  ∀ running', s'.flight.running=some running' → ∃ running, s.flight.running=some running ∧
    running'.item.inHand=running.item.inHand ∧
    (running.item.inHand.work=.gapRead → running.item.deferred=true → running'.item.deferred=true)

namespace Carries

theorem of_running (h : s'.flight.running=s.flight.running) : Carries s s' :=
  fun running' hrunning => ⟨running',h ▸ hrunning,rfl,fun _ hdeferred => hdeferred⟩

theorem refl (s : Reducer) : Carries s s := .of_running rfl

theorem of_none (h : s'.flight.running=none) : Carries s s' := by
  intro running' hrunning
  rw [h] at hrunning
  cases hrunning

theorem trans {s'' : Reducer} (h : Carries s s') (h' : Carries s' s'') : Carries s s'' := by
  intro running'' hrunning''
  obtain ⟨running',hrunning',hhand',hkeeps'⟩ := h' running'' hrunning''
  obtain ⟨running,hrunning,hhand,hkeeps⟩ := h running' hrunning'
  refine ⟨running,hrunning,hhand'.trans hhand,fun hread hdeferred => ?_⟩
  exact hkeeps' (hhand ▸ hread) (hkeeps hread hdeferred)

theorem of_underWay (h : s'.flight.underWay=s.flight.underWay) : Carries s s' := by
  intro running' hrunning'
  unfold underWay at h
  rw [hrunning'] at h
  obtain ⟨running,hrunning,heq⟩ := map_eq_some_iff.mp h.symm
  simp only [Prod.mk.injEq] at heq
  exact ⟨running,hrunning,by rw [heq.2.1],fun _ hdeferred => heq.2.1 ▸ hdeferred⟩

theorem withItem {f : InFlight Current} (hf : s.flight=f) (change : Current → Current)
    (h : ∀ running, s.flight.running=some running →
      (change running.item).inHand=running.item.inHand ∧
        (running.item.inHand.work=.gapRead → running.item.deferred=true →
          (change running.item).deferred=true))
    (hs' : s'.flight=f.withItem change) : Carries s s' := by
  intro running' hrunning'
  rw [hs',← hf] at hrunning'
  obtain ⟨running,hrunning,rfl⟩ := map_eq_some_iff.mp hrunning'
  exact ⟨running,hrunning,(h running hrunning).1,(h running hrunning).2⟩

end Carries

theorem Spoke.carries (h : Spoke s s') : Carries s s' := by
  obtain ⟨facts,h⟩ := h
  intro running' hrunning'
  have hsame := congrArg (fun t => t.flight.running) h
  simp only [unspoken,withItem,hrunning',map_some] at hsame
  obtain ⟨running,hrunning,heq⟩ := map_eq_some_iff.mp hsame.symm
  have hitem := congrArg (fun running => running.item) heq
  refine ⟨running,hrunning,?_,fun _ hdeferred => ?_⟩
  · exact (congrArg Current.inHand hitem).symm
  · exact (congrArg Current.deferred hitem).symm.trans hdeferred

variable {step : Reducer → Reduced}

theorem Speaks.carries (h : Speaks step) (s : Reducer) : Carries s (step s).1 :=
  Spoke.carries ⟨s.facts,h.same s⟩

section Resumed

variable (follow : FollowState) (applied : Applied)

theorem endWatchElsewhere_resumed (node : NodeId) :
    (follow.endWatchElsewhere node applied).2.resumed=applied.resumed := by
  unfold FollowState.endWatchElsewhere
  split <;> rfl

theorem retarget_resumed (target : Target) :
    (follow.retarget target applied).2.resumed=applied.resumed := by
  unfold FollowState.retarget FollowState.moveTo FollowState.unfollow
  split <;> rfl

theorem applyFollow_resumed (facts : Facts) (change : Option Follow) :
    (applyFollow facts change applied).2.resumed=applied.resumed := by
  cases change with
  | none => rfl
  | some follow =>
    simp only [applyFollow]
    split
    · rw [retarget_resumed]
      exact endWatchElsewhere_resumed _ applied follow.node
    · rw [retarget_resumed]

theorem applyForeground_resumed (change : Option (NodeId × Role × Nat)) :
    (applyForeground follow change applied).2.resumed=applied.resumed := by
  cases change with
  | none => rfl
  | some change => exact endWatchElsewhere_resumed follow applied change.1

theorem applyElement_resumed (change : Option (NodeId × Target)) :
    (applyElement follow change applied).2.resumed=applied.resumed := by
  unfold applyElement
  split
  · rfl
  split
  · exact retarget_resumed follow applied _
  · rfl

theorem applyReplaced_resumed (replaced : Option NodeId) :
    (applyReplaced follow replaced applied).2.resumed=applied.resumed := by
  unfold applyReplaced
  split
  · split <;> rfl
  · rfl

theorem apply_resumed (facts : Facts) (generation : Nat) (change : Change) (clock : Clock)
    (h : ∀ watch∈change.watch, watch.isChecked=false) :
    (apply facts generation change clock).2.resumed=false := by
  have hbefore : (applyBefore facts generation change).2.resumed=false := by
    unfold applyBefore
    rw [applyElement_resumed,applyForeground_resumed,applyFollow_resumed,applyReplaced_resumed]
  unfold apply
  simp only
  unfold applyWatch
  split
  · exact hbefore
  · exact hbefore
  · exact hbefore
  next found hwatch =>
    have hnot := h _ hwatch
    cases hnot

end Resumed

def readsGap (s : Reducer) : Bool :=
  s.flight.running.any fun running => running.item.inHand.work=.gapRead

variable (request : Request)

theorem applyChange_carries (change : Change) (now : Now)
    (h : s.readsGap=true → ∀ watch∈change.watch, watch.isChecked=false) :
    Carries s (applyChange request change now s).1 := by
  unfold applyChange
  simp only [andThen]
  refine Carries.trans ?_ ((subscriptionEffects_speaks _ now).carries _)
  unfold ofRequest
  split
  · refine Carries.withItem rfl _ (fun running hrunning => ⟨rfl,fun hread hdeferred => ?_⟩) rfl
    have hreads : s.readsGap=true := by simp [readsGap,hrunning,hread]
    simp only [Current.applied,apply_resumed _ _ change _ (h hreads),false_eq_true,if_false]
    split
    · rfl
    · exact hdeferred
  · exact .of_running rfl

theorem Carries.readsGap (h : Carries s s') (hreads : s'.readsGap=true) : s.readsGap=true := by
  unfold Reducer.readsGap at hreads ⊢
  cases hrunning' : s'.flight.running with
  | none =>
    rw [hrunning'] at hreads
    cases hreads
  | some running' =>
    obtain ⟨running,hrunning,hhand,_⟩ := h running' hrunning'
    rw [hrunning',any_some,hhand] at hreads
    rw [hrunning]
    exact hreads

theorem commit_carries (change : Change) (now : Now)
    (h : s.readsGap=true → ∀ watch∈change.watch, watch.isChecked=false) :
    Carries s (commit request change now s).1 := by
  obtain ⟨t,ht,heq⟩ := commit_eq request change s now
  obtain ⟨intake,after,hnotes,_⟩ := notes_eq change t
  have hmid : Carries s (t.notes change) := ht.carries.trans (.of_running (by rw [hnotes]))
  rw [heq]
  exact hmid.trans (applyChange_carries request change now fun hreads => h (hmid.readsGap hreads))

theorem pushAll_running (entries : List Entry) (s : Reducer) :
    (pushAll entries s).1.flight.running=s.flight.running := by
  obtain ⟨intake,queries,heq⟩ := pushAll_eq entries s
  rw [heq]

theorem decided_carries {f' : InFlight Current} {decision : Decision Current} (now : Now)
    (h : s.flight.Decides f' decision) :
    Carries s ({s with flight := f'}.decided decision now).1 := by
  cases decision with
  | nothing => exact .of_underWay h.1
  | ask ask => cases ask <;> exact .of_underWay h.1
  | abandon a =>
    obtain ⟨_,_,hnone,_⟩ := h
    obtain ⟨t,ht,heq⟩ := abandoned_eq a {s with flight := f'} now
    exact (Carries.of_none hnone).trans (ht.carries.trans (.of_running (by rw [decided,heq])))

theorem finished_carries (reported panicked : Bool) (cut : Option Cut)
    (now : Now) : Carries s (s.finished request reported panicked cut now).1 := by
  unfold finished
  split
  · exact .refl s
  next running hof =>
    have hrunning := (runningOf_eq_some.mp hof).1
    simp only
    split
    next cut _ =>
      intro running' hrunning'
      simp only [dispatchFinish,handOn,hrunning] at hrunning'
      cases hrunning'
      exact ⟨running,hrunning,rfl,fun _ hdeferred => hdeferred⟩
    have hnone : (s.flight.endOf request).1.running=none := by
      simp [endOf,hof]
    obtain ⟨t,ht,heq⟩ := ended_eq running.item (reported || decide (running.walk=.published))
      {s with flight := (s.flight.endOf request).1} now
    exact (Carries.of_none hnone).trans (ht.carries.trans (.of_running (by rw [heq])))

theorem gapBound_carries : Carries s s.gapBound.1 := by
  obtain ⟨gap,requests,heq⟩ := gapBound_eq s
  exact .of_running (by rw [heq])

theorem onSome_carries {given : Option A} {step : A → Reducer → Reduced}
    (h : ∀ a∈given, Carries s (step a s).1) : Carries s (onSome given step s).1 := by
  cases given with
  | none => exact .refl s
  | some a => exact h a rfl

theorem mark_carries (got : Bool) : Carries s {s with flight := s.flight.mark request got} := by
  unfold mark
  split
  · exact .refl s
  next running hof =>
    split
    · intro running' hrunning'
      cases hrunning'
      exact ⟨running,(runningOf_eq_some.mp hof).1,rfl,fun _ hdeferred => hdeferred⟩
    · exact .refl s

/-- What the shell promises of a step's commits: no idle answer is committed, and a program reading
the gap record commits no check of the watch. -/
def promised (s : Reducer) (st : Step) : Bool :=
  st.changes.all fun change => change.result.all (fun message => !message.isIdleAnswer) &&
    (!s.readsGap || change.watch.all fun watch => !watch.isChecked)

theorem promised_result {st : Step} (h : s.promised st=true) {change : Change}
    (hchange : change∈st.changes) : ∀ message∈change.result, message.isIdleAnswer=false := by
  intro message hmessage
  have hkept := all_eq_true.mp h change hchange
  rw [and_eq_true,mem_def.mp hmessage] at hkept
  simpa using hkept.1

theorem promised_watch {st : Step} (h : s.promised st=true) {change : Change}
    (hchange : change∈st.changes) (hreads : s.readsGap=true) :
    ∀ watch∈change.watch, watch.isChecked=false := by
  intro watch hwatch
  have hkept := all_eq_true.mp h change hchange
  rw [and_eq_true,mem_def.mp hwatch,hreads] at hkept
  simpa using hkept.2

theorem takeIn_carries (input : Input) (now : Now) (h : s.promised (.input input)=true) :
    Carries s (s.takeIn input now).1 := by
  cases input with
  | entry entry source =>
    have hseen : Carries s (s.destroySeen entry.item) := by
      unfold destroySeen
      split
      · split
        next window _ =>
          exact .withItem rfl (fun current => {current with destroyed := window::current.destroyed})
            (fun running _ => ⟨rfl,fun _ hdeferred => hdeferred⟩) rfl
        · exact .refl s
      · exact .refl s
    exact hseen.trans (.of_running (pushAll_running _ _))
  | withoutListener | forwardingEnded through => exact .of_running (pushAll_running _ _)
  | cancel requestId =>
    exact Carries.trans (.of_running rfl) ((Speaks.onSome (fun trace => send_speaks _) _).carries _)
  | commit request change =>
    unfold takeIn
    simp only
    split
    · exact commit_carries request change now (promised_watch h mem_cons_self)
    · exact .refl s
  | armed request bound => exact .of_underWay (armed_decides s.flight request bound).1
  | walkReturned request past =>
    exact decided_carries now (walkReturned_decides s.flight request past)
  | finished request reported panicked cut =>
    exact finished_carries request reported panicked cut now
  | released nodes anchors objects =>
    have hspeaks : ∀ (applied : Applied) (t : Reducer), t.flight=s.flight →
        Carries s (subscriptionEffects applied now t).1 := fun applied t ht =>
      Carries.trans (.of_running (by rw [ht])) ((subscriptionEffects_speaks applied now).carries t)
    intro running' hrunning'
    refine hspeaks _ _ ?_ running' hrunning'
    rfl
  | gapBound => exact gapBound_carries
  | gapBoundTested request related title =>
    unfold takeIn gapBoundTested
    simp only
    split
    · exact .refl s
    split
    · simp only [andThen]
      refine (onSome_carries fun change hchange => commit_carries request change now
        (promised_watch h (mem_toList.mpr hchange))).trans (.of_running ?_)
      unfold queueBound
      split <;> rfl
    · exact .of_running rfl
  | judged request verdict window =>
    unfold takeIn
    simp only
    split
    · exact .refl s
    exact ((Speaks.onSome (hangSeen_speaks request) _).carries s).trans
      (decided_carries now (judged_decides _ request verdict))
  | published request change thenAbandon =>
    unfold takeIn published
    simp only [andThen]
    have hcommit : Carries s (onSome (change.filter fun _ => s.accepts request)
        (fun change => commit request change now) s).1 := by
      refine onSome_carries fun committed hcommitted => commit_carries request committed now
        (promised_watch h (mem_toList.mpr ?_))
      exact (filter_eq_some_iff.mp hcommitted).1
    generalize (onSome (change.filter fun _ => s.accepts request)
      (fun change => commit request change now) s).1=t at hcommit ⊢
    refine (hcommit.trans (mark_carries request
      (change.filter fun _ => s.accepts request).isSome)).trans ?_
    split
    · exact decided_carries now (publishedJudgingNothing_decides t.flight request _ thenAbandon)
    · exact decided_carries now (published_decides t.flight request _ thenAbandon now.shellUs)
  | _ => exact .of_running rfl

theorem start_carries (st : Step) (now : Now) (h : s.promised st=true) :
    Carries s (s.start st now).1 := by
  cases st with
  | input input => exact takeIn_carries input now h
  | tick =>
    obtain ⟨flight,decision,hdecides,heq | heq⟩ := wake_eq s now
    · exact heq ▸ (decided_carries now hdecides).trans gapBound_carries
    · exact heq ▸ decided_carries now hdecides

section Outstanding

/-- An entry of `trace` has arrived and is not done with: it is in the intake, or waits behind the
program in flight, or is in that program's hand. -/
def Outstanding (s : Reducer) (trace : TraceId) : Prop :=
  trace∈s.intake.traces ∨
    (∃ entry∈s.tryQueue.behind, entry.isOwn=false ∧ entry.trace=trace) ∨
    ∃ running, s.flight.running=some running ∧ running.item.inHand.arrived=some trace

theorem Starts.behind {st : Step} {q : TryQueue} (h : Starts s st q) {entry : Entry}
    (hentry : entry∈q.behind) : entry∈s.tryQueue.behind ∨ entry.item.isGapRead=true := by
  have hflight : ∀ request group published, flying s.flight=some (request,group,published) →
      s.tryQueue.flight.join=group := by
    intro request group published hflying
    simp [tryQueue,hflying]
  have hafter : ∀ group, s.tryQueue.flight.join=group → entry∈s.after.flatMap entries ∨
      entry∈group.elim [] (·.older) → entry∈s.tryQueue.behind := by
    rintro group rfl hmem
    exact hmem.elim (mem_append_left _) (mem_append_right _)
  cases h with
  | @stays rows hrows =>
    rcases mem_append.mp hentry with hentry | hentry
    · rw [flatMap_append] at hentry
      rcases mem_append.mp hentry with hentry | hentry
      · exact .inr (mem_reads hrows hentry)
      · exact .inl (mem_append_left _ hentry)
    · exact .inl (mem_append_right _ hentry)
  | finished hflying hst =>
    have hentry := (mem_append.mp hentry).resolve_right not_mem_nil
    exact .inl (hafter _ (hflight _ _ _ hflying) (mem_finishedRows hentry))
  | @abandoned request group published rows hflying hst hrows hnone =>
    have hentry := (mem_append.mp hentry).resolve_right not_mem_nil
    have hjoin := hflight _ _ _ hflying
    rcases mem_abandonedRows hentry with hentry | hentry
    · rw [flatMap_append] at hentry
      rcases mem_append.mp hentry with hentry | hentry
      · exact .inr (mem_reads hrows hentry)
      · exact .inl (hafter _ hjoin (.inl hentry))
    · exact .inl (hafter _ hjoin (.inr hentry))

variable {trace : TraceId}

theorem start_outstanding (st : Step) (now : Now) (hpromised : s.promised st=true)
    (h : Outstanding (s.start st now).1 trace) :
    Outstanding s trace ∨ ∃ entry∈s.arrivals now st, entry.trace=trace := by
  rcases h with h | ⟨entry,hentry,hown,htrace⟩ | ⟨running',hrunning',htrace⟩
  · exact ((start_acts s st now).traces h).imp_left .inl
  · refine .inl (.inr (.inl ⟨entry,?_,hown,htrace⟩))
    refine ((start_begins s st now).1.behind hentry).resolve_right fun hread => ?_
    simp [Entry.isOwn,hread] at hown
  · obtain ⟨running,hrunning,hhand,_⟩ := start_carries st now hpromised running' hrunning'
    exact .inl (.inr (.inr ⟨running,hrunning,hhand ▸ htrace⟩))

theorem dispatch_hand (work : Work) (deadline : Nat) (window : Option Window)
    (running : Option (RequestId × TraceId)) (group : Option GroupTry) (now : Now) :
    ∃ flying, (s.dispatch work deadline window running group now).1.flight.running=some flying ∧
      flying.item.inHand=.of work window ∧ flying.item.deferred=work.isGapRead :=
  ⟨_,rfl,rfl,rfl⟩

theorem dispatch_outstanding (work : Work) (deadline : Nat) (window : Option Window)
    (running : Option (RequestId × TraceId)) (group : Option GroupTry) (now : Now)
    (h : Outstanding (s.dispatch work deadline window running group now).1 trace) :
    trace∈s.intake.traces ∨
      (∃ entry∈s.after.flatMap entries++group.elim [] (·.older),
        entry.isOwn=false ∧ entry.trace=trace) ∨
      (InHand.of work window).arrived=some trace := by
  rcases h with h | ⟨entry,hentry,hown,htrace⟩ | ⟨running',hrunning',htrace⟩
  · refine .inl (((dispatch_acts work deadline window running group now).traces h).resolve_right ?_)
    rintro ⟨_,hmem,_⟩
    cases hmem
  · rw [(dispatch_queue work deadline window running group now).1] at hentry
    exact .inr (.inl ⟨entry,hentry,hown,htrace⟩)
  · obtain ⟨flying,hflying,hhand,_⟩ := dispatch_hand work deadline window running group now
    rw [hflying] at hrunning'
    cases hrunning'
    exact .inr (.inr (hhand ▸ htrace))

theorem dispatchEntry_outstanding (entry : Entry) (handling : Handling) (batch : Nat)
    (group : Option GroupTry) (now : Now)
    (h : Outstanding (s.dispatchEntry entry handling batch group now).1 trace) :
    trace∈s.intake.traces ∨
      ∃ other∈entry::(s.after.flatMap entries++group.elim [] (·.older)),
        other.isOwn=false ∧ other.trace=trace := by
  rcases dispatch_outstanding _ _ _ _ _ now h with
    h | ⟨other,hother,hown,htrace⟩ | h
  · exact .inl h
  · exact .inr ⟨other,mem_cons_of_mem _ hother,hown,htrace⟩
  rw [arrived_entry] at h
  split at h
  · cases h
  next hown =>
    exact .inr ⟨entry,mem_cons_self,by simpa using hown,some.inj h⟩

theorem Speaks.outstanding (hspeaks : Speaks step)
    (s : Reducer) {trace : TraceId} (h : Outstanding (step s).1 trace) : Outstanding s trace := by
  rcases h with h | ⟨entry,hentry,hown,htrace⟩ | ⟨running',hrunning',htrace⟩
  · refine .inl (((hspeaks.acts s).traces h).resolve_right ?_)
    rintro ⟨_,hmem,_⟩
    cases hmem
  · rw [tryQueue_eq (hspeaks.trying s)] at hentry
    exact .inr (.inl ⟨entry,hentry,hown,htrace⟩)
  · obtain ⟨running,hrunning,hhand,_⟩ := hspeaks.carries s running' hrunning'
    exact .inr (.inr ⟨running,hrunning,hhand ▸ htrace⟩)

theorem handed_outstanding (hs : Sound s.intake) {planned : Planned} {batch : Nat}
    (hnext : (s.intake.next s.facts.marks.toMarks).2=some (planned,batch)) {entry : Entry}
    (hentry : entry∈planned.entries) (hown : entry.isOwn=false) : entry.trace∈s.intake.traces := by
  have hnot : entry.item.isNotedCaret=false := (or_eq_false_iff.mp hown).1
  rcases next_handed hnext with ⟨rest,hbatch⟩ | ⟨noted,hidle,rfl⟩
  · refine mem_traces.mpr ⟨entry,filled_entries s.facts.marks.toMarks ?_,hnot,rfl⟩
    refine mem_entries.mpr (.inr ⟨planned,?_,hentry⟩)
    rw [hbatch]
    exact mem_cons_self
  · obtain rfl := mem_singleton.mp hentry
    rw [filled_frame.1] at hidle
    rw [hs.kept entry (by rw [hidle]; rfl)] at hnot
    cases hnot

theorem handed_traces (h : trace∈s.handed.intake.traces) : trace∈s.intake.traces := by
  refine traces_of_entries (fun entry hentry => filled_entries s.facts.marks.toMarks ?_) h
  change entry∈(s.intake.next s.facts.marks.toMarks).1.entries at hentry
  rw [Intake.next_eq] at hentry
  unfold Intake.handOut at hentry
  split at hentry
  next planned batch hbatch =>
    rw [mem_entries] at hentry ⊢
    refine hentry.imp_right ?_
    rintro ⟨p,hp,hentry⟩
    exact ⟨p,by rw [hbatch]; exact mem_cons_of_mem _ hp,hentry⟩
  · unfold Intake.nextIdle at hentry
    split at hentry <;> exact hentry

theorem run_outstanding (entry : Entry) (batch : Nat) (now : Now) (hidle : s.flight.running=none)
    (h : Outstanding (s.run entry batch now).1 trace) :
    trace∈(s.run entry batch now).1.intake.traces ∨ trace∈s.intake.traces ∨
      (∃ other∈s.tryQueue.behind, other.isOwn=false ∧ other.trace=trace) ∨
      (entry.isOwn=false ∧ entry.trace=trace) := by
  have hstays : ∀ t : Reducer, t.flight=s.flight → t.tryQueue=s.tryQueue →
      Outstanding t trace → trace∈t.intake.traces ∨
        ∃ other∈s.tryQueue.behind, other.isOwn=false ∧ other.trace=trace := by
    rintro t hflight hqueue (h | h | ⟨running,hrunning,_⟩)
    · exact .inl h
    · exact .inr (hqueue ▸ h)
    · rw [hflight,hidle] at hrunning
      cases hrunning
  have hdispatched : ∀ (t : Reducer) (handled : Entry), t.after=s.after →
      Outstanding (t.dispatchEntry handled .run batch none now).1 trace →
      trace∈t.intake.traces ∨
        (∃ other∈s.tryQueue.behind, other.isOwn=false ∧ other.trace=trace) ∨
        (handled.isOwn=false ∧ handled.trace=trace) := by
    intro t handled hafter h
    rcases dispatchEntry_outstanding handled .run batch none now h with
      h | ⟨other,hother,hown,htrace⟩
    · exact .inl h
    rcases mem_cons.mp hother with rfl | hother
    · exact .inr (.inr ⟨hown,htrace⟩)
    refine .inr (.inl ⟨other,?_,hown,htrace⟩)
    rw [hafter] at hother
    exact mem_append_left _ ((mem_append.mp hother).resolve_right not_mem_nil)
  have hruns := run_runs s entry batch now
  generalize s.run entry batch now=out at h hruns ⊢
  cases hruns with
  | @barrier asker behindNoted hitem =>
    obtain ⟨hflight,hqueue,_⟩ := barrier_queue asker behindNoted entry
    exact (hstays _ hflight hqueue h).imp_right fun h => .inr (.inl h)
  | dispatched hitem => exact .inr (hdispatched s entry rfl h)
  | @read bound gap found hitem hread =>
    rcases hdispatched (s.withGap fun _ => gap)
      {entry with item := .gapRead found.window, observedAtUs := found.stampUs} rfl h with
      h | h | ⟨hown,_⟩
    · exact .inr (.inl h)
    · exact .inr (.inr (.inl h))
    · cases hown
  | passed hitem | releasing hitem => exact (hstays _ rfl rfl h).imp_right fun h => .inr (.inl h)
  | replied hitem =>
    rcases (send_speaks _).outstanding s h with h | h | ⟨running,hrunning,_⟩
    · exact .inr (.inl h)
    · exact .inr (.inr (.inl h))
    · rw [hidle] at hrunning
      cases hrunning

theorem turn_outstanding (hs : Sound s.intake) {now : Now} {out : Reduced}
    (hturn : s.turn now=some out) (h : Outstanding out.1 trace) : Outstanding s trace := by
  have hintake : trace∈out.1.intake.traces → trace∈s.intake.traces := by
    intro hmem
    have hnone : ¬∃ entry∈([] : List Entry), entry.trace=trace := by simp
    rcases turn_acts hturn with hacts | hacts
    · exact (hacts.traces hmem).resolve_right hnone
    · exact take_traces hs _ ((hacts.traces hmem).resolve_right hnone)
  have hprogram : ∀ (t : Reducer) (work : Work) (deadline : Nat), t.after=s.after →
      (∀ trace∈t.intake.traces, trace∈s.intake.traces) →
      (InHand.of work none).arrived=none →
      Outstanding (t.dispatch work deadline none none none now).1 trace → Outstanding s trace := by
    intro t work deadline hafter hkept hwork h
    rcases dispatch_outstanding work deadline none none none now h with
      h | ⟨entry,hentry,hrest⟩ | h
    · exact .inl (hkept trace h)
    · rw [hafter] at hentry
      exact .inr (.inl ⟨entry,mem_append_left _
        ((mem_append.mp hentry).resolve_right not_mem_nil),hrest⟩)
    · rw [hwork] at h
      cases h
  cases turn_turned hturn with
  | attempted hsettled => exact hprogram {s with facts := _} (.owed _) _ rfl (fun _ h => h) rfl h
  | @popped entry group after hsettled hafter =>
    rcases dispatchEntry_outstanding entry _ _ group now h with
      h | ⟨other,hother,hown,htrace⟩
    · exact .inl h
    refine .inr (.inl ⟨other,mem_append_left _ ?_,hown,htrace⟩)
    change other∈s.after.flatMap entries
    rw [hafter,flatMap_cons,entries]
    simp only [mem_cons,mem_append] at hother ⊢
    tauto
  | dropped hsettled =>
    exact hprogram {s with toDrop := false} .drop _ rfl (fun _ h => h) rfl h
  | @taken planned batch hsettled hafter hnext =>
    have hentries : ∀ entry∈planned.entries, entry.isOwn=false → entry.trace=trace →
        Outstanding s trace := fun entry hentry hown htrace =>
      .inl (htrace ▸ handed_outstanding hs hnext hentry hown)
    cases planned with
    | run entry =>
      rcases run_outstanding (s := s.handed) entry batch now (running_of_unsettled hsettled) h
        with h | h | h | ⟨hown,htrace⟩
      · exact .inl (hintake h)
      · exact .inl (handed_traces h)
      · exact .inr (.inl h)
      · exact hentries entry mem_cons_self hown htrace
    | menu entry =>
      rcases dispatchEntry_outstanding entry .menu batch none now h with
        h | ⟨other,hother,hown,htrace⟩
      · exact .inl (handed_traces h)
      rcases mem_cons.mp hother with rfl | hother
      · exact hentries other mem_cons_self hown htrace
      · exact .inr (.inl ⟨other,mem_append_left _
          ((mem_append.mp hother).resolve_right not_mem_nil),hown,htrace⟩)
    | focus entries =>
      cases entries with
      | nil =>
        rcases h with h | h | ⟨running,hrunning,_⟩
        · exact .inl (handed_traces h)
        · exact .inr (.inl h)
        have hidle := running_of_unsettled hsettled
        change s.flight.running=some running at hrunning
        rw [hidle] at hrunning
        cases hrunning
      | cons newest older =>
        rcases dispatchEntry_outstanding newest _ _ _ now h with h | ⟨other,hother,hown,htrace⟩
        · exact .inl (handed_traces h)
        rcases mem_cons.mp hother with rfl | hother
        · exact hentries other mem_cons_self hown htrace
        rcases mem_append.mp hother with hother | hother
        · exact .inr (.inl ⟨other,mem_append_left _ hother,hown,htrace⟩)
        · exact hentries other (mem_cons_of_mem _ hother) hown htrace
  | @watchEnded watch answer hsettled hafter hnext hreach =>
    rcases (answerWatch_speaks now answer).outstanding (s.handed.withWatch watch) h with h | h | h
    · exact .inl (handed_traces h)
    · exact .inr (.inl h)
    · exact .inr (.inr h)
  | @polled watch hsettled hafter hnext hreach =>
    refine hprogram (s.handed.withWatch watch) .pollRead s.handling rfl (fun _ => handed_traces)
      rfl ?_
    rcases h with h | ⟨entry,hentry,hrest⟩ | ⟨running',hrunning',htrace⟩
    · exact .inl h
    · exact .inr (.inl ⟨entry,hentry,hrest⟩)
    simp only [deferring,withItem] at hrunning'
    obtain ⟨running,hrunning,rfl⟩ := map_eq_some_iff.mp hrunning'
    exact .inr (.inr ⟨running,hrunning,htrace⟩)

end Outstanding

end Reducer

end Verbatim.Outpost
