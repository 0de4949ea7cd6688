import Verbatim.Flood.Steps

namespace Verbatim.Flood

open Verbatim.Terminal List
open Verbatim.Core (NodeId QueryId OutpostId TraceId)

/-- The request's answer, or its end without one, from the outpost asked. -/
def State.ended (graphemes : Graphemes) (s : State) (trace : TraceId) (query : QueryId)
    (outpost : OutpostId) (items : List SaidItem) : Acted :=
  match s.queries.find? (·.id=query) with
  | none => (s,[])
  | some found =>
      if found.outpost≠outpost then (s,[])
      else
        let s := {s with queries := s.queries.erase found}
        match found.continues with
        | none => (s,[])
        | some ask => s.answered graphemes trace ask items

/-- What the policy is told of: what a terminal said, playback, speech cut off, a request's answer,
the focus and the settings; and what the rest of Core does meanwhile to the focus, the terminals it
reads and the next numbers. -/
inductive Event where
  | speech (trace : TraceId) (observedAtMs : Nat) (node : NodeId) (items : List SaidItem)
  | markReached (mark : SpeechMark)
  | utteranceCancelled (marks : List SpeechMark) (atMs : Nat)
  | cut (atMs : Nat)
  | ended (trace : TraceId) (query : QueryId) (outpost : OutpostId) (items : List SaidItem)
  | focusMoved (node : NodeId) (left : Bool)
  | toggle
  | changeSettings (settings : Settings)
  | elsewhere (focus : Option Focus) (models : List TerminalModel) (queries marks : Nat)

def State.handle (graphemes : Graphemes) (s : State) : Event → State
  | .speech trace observedAtMs node items => (s.speech graphemes trace observedAtMs node items).1
  | .markReached mark => (s.markReached mark).1
  | .utteranceCancelled marks atMs => (s.utteranceCancelled marks atMs).1
  | .cut atMs => (s.cut atMs).1
  | .ended trace query outpost items => (s.ended graphemes trace query outpost items).1
  | .focusMoved node left => s.focusMoved node left
  | .toggle => s.toggle.1
  | .changeSettings settings => (s.changeSettings settings).1
  | .elsewhere focus models queries marks =>
      {s with
        focus := focus
        models := models
        nextQuery := s.nextQuery+queries
        nextMark := s.nextMark+marks}

section Ends

theorem countLeft_length (skipped : Option Skipped) :
    (countLeft skipped).length ≤ skipped.toList.length := by
  unfold countLeft
  repeat' split
  all_goals simp

theorem Dropping.run_length (d : Dropping) (waiting : List Waiting) :
    (countLeft (d.run waiting).1.skipped).length+(d.run waiting).2.length ≤
      d.skipped.toList.length+waiting.length := by
  induction waiting generalizing d with
  | nil => exact countLeft_length d.skipped
  | cons item rest ih =>
    unfold run
    split
    · have hone := (d.drop item).skipped.length_toList_le
      have hrest := ih (d.drop item)
      simp only [length_cons]
      omega
    · exact Nat.add_le_add_right (countLeft_length d.skipped) _

theorem skipAllBut_length (waiting : List Waiting) (keep : Nat) :
    (skipAllBut waiting 0 keep).length ≤ waiting.length := by
  simpa [skipAllBut] using Dropping.run_length ⟨_,none,false⟩ waiting

namespace State

variable {s : State} (trace : TraceId)

theorem handOn_turns : (s.handOn trace s.terminal.waiting).1.turns ≤ s.turns := by
  refine handOn_keeps (P := fun t => t.turns ≤ s.turns) trace
    (fun t item rest ht hwaiting _ => le_trans ?_ ht) rfl le_rfl
  simp only [turns,handOne_waiting,hwaiting,length_cons]
  split <;> omega

theorem decide_turns (h : s.heard) : s.decide.turns<s.turns := by
  unfold heard at h
  unfold decide
  split
  next hnone =>
    cases hgroup : s.terminal.group with
    | none => simp [hgroup] at h
    | some left => cases left <;> simp [turns,hgroup,hnone]
  next hsome =>
    have hgroup : s.terminal.group=some 0 := by simp_all
    have hfull := s.full_pos
    have hlength := skipAllBut_length s.terminal.waiting s.last
    dsimp only
    split
    all_goals
      simp only [turns,hgroup]
      split <;> grind

/-- The pump and its decisions call each other no more often than the queue and the group allow:
more fuel changes nothing. -/
theorem pump_and_decide_end (s : State) (trace : TraceId) (more : Nat) :
    pumpLoop (s.turns+1+more) trace s=s.pump trace := by
  suffices henough : ∀ fuel, s.turns<fuel →
      pumpLoop (fuel+more) trace s=pumpLoop fuel trace s from henough _ (Nat.lt_succ_self _)
  intro fuel hfuel
  induction fuel generalizing s trace with
  | zero => exact absurd hfuel (Nat.not_lt_zero _)
  | succ fuel ih =>
    have hturns := handOn_turns (s := s) trace
    rw [Nat.succ_add]
    unfold pumpLoop
    generalize s.handOn trace s.terminal.waiting=r at hturns
    dsimp only
    split
    next hheard =>
      have hdecided := decide_turns (Bool.and_elim_right hheard)
      split
      · rfl
      split
      · rfl
      next newest _ => rw [ih _ newest (by omega)]
    · rfl

theorem handOn_stops {waiting : List Waiting} (hwaiting : s.terminal.waiting=waiting)
    {item : Waiting} {rest : List Waiting}
    (hleft : (s.handOn trace waiting).1.terminal.waiting=item::rest) :
    (s.handOn trace waiting).1.stopsAt item=true := by
  induction waiting generalizing s with
  | nil => simp_all [handOn]
  | cons first more ih =>
    unfold handOn at hleft ⊢
    split at hleft
    next hstops =>
      rw [if_pos hstops]
      simp_all
    next hgoes =>
      rw [if_neg hgoes]
      exact ih (handOne_waiting s trace first more) hleft

end State

end Ends

/-- A read or a cancel whose answer the policy takes as its own. -/
def Open.current (query : Open) : Bool :=
  query.continues=some .read || query.continues=some .cancel

/-- At most one read or cancel is unanswered, no more is ahead of playback than is allowed, what
waits was said under a trace, and a decision put off waits, between events, for a read. -/
structure Keeps (between waits : Prop) (queries : List Open) (ahead : List (SpeechMark × Bool))
    (trace : Option TraceId) (deciding : Bool) : Prop where
  one : queries.countP Open.current ≤ 1
  few : ahead.length ≤ aheadLimit
  traced : waits → trace.isSome=true
  reads : between → deciding=true → queries.any (·.continues=some .read)=true

/-- Changing the first that has a property leaves none, when one has it at most. -/
theorem countP_modify_findIdx {α : Type} {p q : α → Bool} {f : α → α} {l : List α}
    (hp : ∀ x∈l, q x=p x) (hf : ∀ x, q (f x)=false) (h : l.countP q ≤ 1) :
    (match l.findIdx? p with
      | none => l
      | some index => l.modify index f).countP q=0 := by
  induction l with
  | nil => rfl
  | cons x l ih =>
    rw [forall_mem_cons] at hp
    rw [countP_cons,hp.1] at h
    rw [findIdx?_cons]
    cases hx : p x with
    | true => simpa [hf,hx] using h
    | false =>
      have hrest := ih hp.2 (by simpa [hx] using h)
      cases hfound : l.findIdx? p <;> simpa [hfound,hp.1,hx] using hrest

namespace State

def Sound (between waits : Prop) (s : State) : Prop :=
  Keeps between waits s.queries s.terminal.ahead s.terminal.trace s.terminal.deciding

/-- What waits is handed on, or looked at, once playback reaches a mark or a read is answered. -/
structure Live (between : Prop) (s : State) : Prop where
  sound : s.Sound between (s.terminal.waiting≠[])
  awake : s.terminal.waiting≠[] →
    s.terminal.ahead≠[] ∨ s.terminal.sounding.isSome ∨ s.terminal.deciding

/-- Nothing waits, or a mark is still to be reached, or a read to be answered. -/
def Woken (s : State) : Prop :=
  s.terminal.waiting=[] ∨ s.terminal.ahead≠[] ∨ s.terminal.sounding.isSome ∨ s.asked .read

variable {between waits : Prop} {s t : State}

section Sound

variable (h : s.Sound between waits)

include h

theorem Sound.setHeld (held : Bool) : (s.setHeld held).Sound between waits := by
  unfold State.setHeld
  split <;> exact h

theorem Sound.request {op : TextOp} {continues : Option TerminalAsk} {act : Act}
    (hrequest : s.request op continues=some (t,act))
    (hfree : continues≠none → s.queries.countP Open.current=0) (held : Bool) :
    (t.setHeld held).Sound between waits := by
  obtain ⟨node,-,-,rfl⟩ := request_some hrequest
  refine Sound.setHeld ?_ held
  refine {h with one := ?_,reads := fun hbetween hdeciding => ?_}
  · rw [countP_append]
    cases continues with
    | none => exact h.one
    | some ask =>
      rw [hfree (by simp)]
      exact (Nat.zero_add _).trans_le countP_le_length
  · rw [any_append,h.reads hbetween hdeciding,Bool.true_or]

theorem Sound.ask (hold : Bool) : (s.ask hold).1.Sound between waits := by
  unfold State.ask
  split
  · exact h
  next hfree =>
    split
    · exact h
    next hrequest =>
      refine h.request hrequest (fun _ => countP_eq_zero.mpr fun query hquery => ?_) hold
      simp only [asked,Bool.or_eq_true,not_or,any_eq_true,not_exists,not_and,
        decide_eq_true_eq] at hfree
      simpa [Open.current] using ⟨hfree.1 query hquery,hfree.2 query hquery⟩

theorem Sound.holdIfFull : s.holdIfFull.1.Sound between waits := by
  unfold State.holdIfFull
  split
  · exact h
  split
  · exact h
  next hrequest => exact h.request hrequest (by simp) true

theorem Sound.goLive : s.goLive.1.Sound between waits := by
  unfold State.goLive
  split
  · exact h.ask false
  · exact h

theorem Sound.takeOff (item : Waiting) (rest : List Waiting) :
    (s.takeOff item rest).1.Sound between waits := by
  unfold State.takeOff State.countDown
  dsimp only
  repeat' split
  case h_2.isTrue =>
    refine Sound.ask ?_ true
    exact h
  all_goals exact h

theorem Sound.handOn (trace : TraceId) :
    (s.handOn trace s.terminal.waiting).1.Sound between waits := by
  refine handOn_keeps trace (fun s item rest h _ hgoes => ?_) rfl h
  have hahead := congrArg (·.ahead) (takeOff_frame s item rest).1.terminal
  have hoff := h.takeOff item rest
  unfold State.handOne
  generalize s.takeOff item rest=off at hahead hoff
  dsimp only at hahead ⊢
  split
  · exact hoff
  · refine {hoff with few := ?_}
    simp only [speak,length_append,hahead]
    exact Nat.lt_of_not_le (of_decide_eq_false (Bool.or_eq_false_iff.mp hgoes).1)

theorem Sound.decide : s.decide.Sound between waits := by
  unfold State.decide
  dsimp only
  repeat' split
  all_goals exact h

end Sound

theorem Live.frame (h : s.Live between) (hframe : Frame s t)
    (hsound : t.Sound between (s.terminal.waiting≠[])) : t.Live between := by
  rw [←hframe.terminal] at hsound
  exact ⟨hsound,hframe.terminal ▸ h.awake⟩

theorem Live.goLive (h : s.Live between) : s.goLive.1.Live between :=
  h.frame (goLive_frame s).1 h.sound.goLive

section Pump

variable (h : s.Sound between True)

include h

theorem Sound.putOff (hread : s.asked .read=true) :
    State.Live between {s with terminal.deciding := true} :=
  ⟨{h with traced := fun _ => h.traced trivial,reads := fun _ _ => hread},by simp⟩

/-- However the pump is entered, what it leaves waiting is woken again. -/
theorem Sound.pumpLoop {fuel : Nat} (trace : TraceId) (hfuel : s.turns<fuel) :
    (pumpLoop fuel trace s).1.Live between := by
  induction fuel generalizing trace s with
  | zero => exact absurd hfuel (Nat.not_lt_zero _)
  | succ fuel ih =>
    have hsound := h.handOn trace
    have hturns := handOn_turns (s := s) trace
    have hstops := @handOn_stops s trace _ rfl
    unfold State.pumpLoop
    generalize s.handOn trace s.terminal.waiting=r at *
    dsimp only
    split
    next hheard =>
      split
      next hread => exact hsound.putOff hread
      split
      next hnone => simpa [hnone] using hsound.traced trivial
      next newest _ =>
        have hdecided := decide_turns (Bool.and_elim_right hheard)
        exact (ih hsound.decide newest (by omega)).goLive
    next hsounds =>
      -- what waits stopped the pump: enough is ahead, or the group is over and still sounds
      refine ⟨{hsound with traced := fun _ => hsound.traced trivial},fun hwaiting => ?_⟩
      obtain ⟨item,rest,hleft⟩ := exists_cons_of_ne_nil hwaiting
      have hstop := hstops hleft
      simp only [heard,stopsAt] at hsounds hstop
      grind [aheadLimit]

theorem Sound.pump (trace : TraceId) : (s.pump trace).1.Live between :=
  h.pumpLoop trace (Nat.lt_succ_self _)

end Pump

theorem Sound.decideAndPump (h : s.Sound between (s.terminal.waiting≠[])) :
    s.decideAndPump.1.Live between := by
  unfold State.decideAndPump
  split
  next hnone => exact ⟨h,fun hwaiting => by simpa [hnone] using h.traced hwaiting⟩
  next trace hsome =>
    have hsound : s.Sound between True := {h with traced := by simp [hsome]}
    exact (hsound.decide.pump trace).goLive

theorem Sound.cancel (h : s.Sound between waits) (hdecided : s.terminal.deciding=false)
    (hnone : s.terminal.waiting=[]) : s.cancel.1.Live between := by
  unfold State.cancel
  split
  · exact ⟨{h with traced := absurd hnone},absurd hnone⟩
  · extract_lets ended queries asking
    have hfree : queries.countP Open.current=0 := by
      refine countP_modify_findIdx (fun query hquery => ?_) (fun _ => by simp [Open.current]) ?_
      · obtain ⟨⟨id,outpost,_|_|_|_⟩,-,rfl⟩ := mem_map.mp hquery <;> rfl
      · rw [countP_map]
        refine (countP_mono_left fun query _ => ?_).trans h.one
        obtain ⟨id,outpost,_|_|_|_⟩ := query <;> simp [Open.current]
    have hlive : asking.Live between :=
      ⟨⟨hfree.trans_le (Nat.zero_le 1),h.few,absurd hnone,by simp [asking,hdecided]⟩,absurd hnone⟩
    split
    · exact hlive
    next hrequest =>
      exact hlive.frame (request_frame hrequest false).1
        (hlive.sound.request hrequest (fun _ => hfree) false)

namespace Live

variable (h : s.Live between)

include h

theorem cut (atMs : Nat) : (s.cut atMs).1.Live between :=
  Sound.cancel {h.sound with few := Nat.zero_le _,reads := by simp} rfl rfl

theorem dropWaiting : s.dropWaiting.1.Live between :=
  Sound.cancel {h.sound with reads := by simp} rfl rfl

theorem markReached (mark : SpeechMark) : (s.markReached mark).1.Live between := by
  unfold State.markReached
  split
  · exact h
  next trace hsome =>
    have hheard : State.Sound between True {s with terminal.sounding := none} :=
      {h.sound with traced := by simp [hsome]}
    split
    · refine Sound.pump ?_ trace
      exact {hheard with few := (dropWhile_sublist _).length_le.trans h.sound.few}
    split
    · exact h
    dsimp only
    repeat' split
    next hread => exact hheard.putOff hread
    · exact Sound.decideAndPump {hheard with traced := fun _ => hheard.traced trivial}
    · exact hheard.pump trace

variable (graphemes : Graphemes) (trace : TraceId) (items : List SaidItem)

theorem take (beforeCut : Bool) : (s.take graphemes trace items beforeCut).1.Live between := by
  unfold State.take takeOutput
  dsimp only
  split
  · exact h
  · have hpump (waiting : List Waiting) (group : Option Nat) :
        ({s with
          terminal.trace := some trace
          terminal.group := group
          terminal.waiting := waiting}.pump trace).1.Live between := by
      refine Sound.pump ?_ trace
      exact {h.sound with traced := fun _ => rfl}
    exact (hpump _ _).frame (holdIfFull_frame _).1 (hpump _ _).sound.holdIfFull

omit h

theorem answered {ask : TerminalAsk} (h : s.Live (some ask≠some .read)) :
    (s.answered graphemes trace ask items).1.Live True := by
  have htake (beforeCut : Bool) := h.take graphemes trace items beforeCut
  unfold State.answered
  cases ask with
  | read =>
    dsimp only
    split
    · refine Sound.decideAndPump ?_
      exact {(htake false).sound with reads := by simp}
    next hdecided =>
      exact ⟨{(htake false).sound with reads := by simp [hdecided]},(htake false).awake⟩
  | _ =>
    exact ⟨{(htake true).sound with reads := fun _ => (htake true).sound.reads (by simp)},
      (htake true).awake⟩

theorem ended (h : s.Live True) (query : QueryId) (outpost : OutpostId) :
    (s.ended graphemes trace query outpost items).1.Live True := by
  unfold State.ended
  split
  · exact h
  next found _ =>
    -- only a read's answer can be the one that a decision waits for
    have hrest : State.Live (found.continues≠some .read)
        {s with queries := s.queries.erase found} := by
      refine ⟨{h.sound with one := ?_,reads := fun hfound hdeciding => ?_},h.awake⟩
      · exact erase_sublist.countP_le.trans h.sound.one
      · obtain ⟨query,hquery,hread⟩ := any_eq_true.mp (h.sound.reads trivial hdeciding)
        refine any_eq_true.mpr ⟨query,(mem_erase_of_ne ?_).mpr hquery,hread⟩
        rintro rfl
        exact hfound (by simpa using hread)
    split
    · exact h
    dsimp only
    split
    next hnothing => simpa [hnothing] using hrest
    next ask hask =>
      rw [hask] at hrest
      exact hrest.answered graphemes trace items

theorem woken (h : s.Live True) : s.Woken := by
  by_cases hwaiting : s.terminal.waiting=[]
  · exact .inl hwaiting
  · exact .inr ((h.awake hwaiting).imp_right (.imp_right (h.sound.reads trivial)))

theorem handle (h : s.Live True) (event : Event) : (s.handle graphemes event).Live True := by
  cases event with
  | speech trace observedAtMs node items =>
    simp only [State.handle,State.speech]
    split
    · exact h.take graphemes trace items _
    · exact h
  | markReached mark => exact h.markReached mark
  | utteranceCancelled marks atMs =>
    simp only [State.handle,State.utteranceCancelled]
    split
    · exact h.cut atMs
    · exact h
  | cut atMs => exact h.cut atMs
  | ended trace query outpost items => exact h.ended graphemes trace items query outpost
  | focusMoved node left =>
    simp only [State.handle,State.focusMoved]
    split
    · refine ⟨⟨?_,Nat.zero_le _,absurd rfl,by simp⟩,absurd rfl⟩
      simp [countP_map,Function.comp_def,Open.current]
    · exact h
  | toggle =>
    simp only [State.handle,State.toggle]
    split
    · exact ⟨h.sound,h.awake⟩
    · refine dropWaiting ?_
      exact ⟨h.sound,h.awake⟩
  | changeSettings settings =>
    simp only [State.handle,State.changeSettings]
    split
    · exact ⟨h.dropWaiting.sound,h.dropWaiting.awake⟩
    · exact ⟨h.sound,h.awake⟩
  | elsewhere => exact ⟨h.sound,h.awake⟩

end Live

variable (graphemes : Graphemes) (s : State) (events : List Event)

/-- The policy after events in any order, from a state that has asked and heard nothing yet. -/
def after : State :=
  events.foldl (handle graphemes) {s with queries := [],terminal := {}}

theorem after_live : (s.after graphemes events).Live True :=
  foldlRecOn events _ ⟨⟨Nat.zero_le _,Nat.zero_le _,absurd rfl,by simp⟩,absurd rfl⟩
    fun _ h event _ => h.handle graphemes event

/-- Whatever the policy is told of, a second read or cancel is never unanswered, and no more is
handed to speech ahead of playback than is allowed. -/
theorem one_request_and_few_ahead :
    (s.after graphemes events).queries.countP Open.current ≤ 1 ∧
      (s.after graphemes events).terminal.ahead.length ≤ aheadLimit :=
  have h := (after_live graphemes s events).sound
  ⟨h.one,h.few⟩

/-- Whatever the policy is told of, output that waits is never left without a mark that playback
has still to reach or a read that is still to be answered. -/
theorem waiting_output_is_woken : (s.after graphemes events).Woken :=
  (after_live graphemes s events).woken

section Drains

variable {s : State} (trace : TraceId)

/-- What is still to be handed on, heard or answered: a line handed on is two marks, and may be
asked after. -/
def left (s : State) : Nat :=
  3*s.terminal.waiting.length+s.terminal.ahead.length+s.terminal.sounding.toList.length+
    s.queries.length

theorem ask_queries (s : State) (hold : Bool) :
    (s.ask hold).1.queries.length ≤ s.queries.length+1 := by
  unfold ask
  split
  · exact Nat.le_succ _
  split
  · exact Nat.le_succ _
  next hrequest =>
    obtain ⟨node,-,-,rfl⟩ := request_some hrequest
    unfold setHeld
    split <;> simp

theorem handOne_left {item : Waiting} {rest : List Waiting}
    (hwaiting : s.terminal.waiting=item::rest) : (s.handOne trace item rest).1.left ≤ s.left := by
  have hterminal := (takeOff_frame s item rest).1.terminal
  have hqueries : (s.takeOff item rest).1.queries.length ≤ s.queries.length+1 := by
    unfold takeOff countDown
    dsimp only
    repeat' split
    case h_2.isTrue => exact ask_queries _ true
    all_goals exact Nat.le_succ _
  unfold handOne
  generalize s.takeOff item rest=off at hterminal hqueries
  dsimp only
  split
  all_goals
    simp only [left,speak,hterminal,hwaiting,length_cons,length_append,length_nil,
      Option.toList_some]
    omega

theorem decide_left (s : State) : s.decide.left ≤ s.left := by
  have hlength := skipAllBut_length s.terminal.waiting s.last
  unfold decide
  dsimp only
  repeat' split
  case isFalse.isTrue =>
    simp only [left]
    omega
  all_goals exact le_rfl

/-- Everything was handed on, or no more is left than was. -/
def Drains (left : Nat) (t : State) : Prop := t.terminal.waiting=[] ∨ t.left ≤ left

theorem Drains.goLive {n : Nat} (h : Drains n s) : Drains n s.goLive.1 := by
  by_cases hwaiting : s.terminal.waiting=[]
  · exact .inl ((goLive_frame s).1.same.waiting.trans hwaiting)
  · simpa [State.goLive,hwaiting] using h

theorem Drains.mono {m n : Nat} (h : Drains m s) (hle : m ≤ n) : Drains n s :=
  h.imp_right (·.trans hle)

theorem pumpLoop_drains (fuel : Nat) (trace : TraceId) (s : State) :
    Drains s.left (pumpLoop fuel trace s).1 := by
  induction fuel generalizing trace s with
  | zero => exact .inr le_rfl
  | succ fuel ih =>
    have hhand : (s.handOn trace s.terminal.waiting).1.left ≤ s.left :=
      handOn_keeps (P := fun t => t.left ≤ s.left) trace
        (fun t item rest ht hwaiting _ => (handOne_left trace hwaiting).trans ht) rfl le_rfl
    unfold pumpLoop
    generalize s.handOn trace s.terminal.waiting=r at hhand
    dsimp only
    split
    · split
      · exact .inr hhand
      split
      · exact .inr hhand
      · exact ((ih _ r.1.decide).mono ((decide_left _).trans hhand)).goLive
    · exact .inr hhand

theorem pump_drains (s : State) : Drains s.left (s.pump trace).1 :=
  pumpLoop_drains _ trace s

theorem decideAndPump_drains (s : State) : Drains s.left s.decideAndPump.1 := by
  unfold decideAndPump
  split
  · exact .inr le_rfl
  · exact ((pump_drains _ s.decide).mono (decide_left s)).goLive

/-- Playback reaches its next mark, or, with nothing to play, the oldest request is answered with
nothing new. -/
def nextEvent (s : State) (trace : TraceId) : Option Event :=
  match s.terminal.ahead,s.terminal.sounding,s.queries with
  | (mark,_)::_,_,_ | [],some mark,_ => some (.markReached mark)
  | [],none,query::_ => some (.ended trace query.id query.outpost [])
  | [],none,[] => none

/-- What playback and the outposts do, until nothing waits. -/
def drain : Nat → State → State
  | 0,s => s
  | fuel+1,s =>
      if s.terminal.waiting=[] then s
      else match s.nextEvent trace with
        | none => s
        | some event => drain fuel (s.handle graphemes event)

theorem ended_drains {query : Open} {rest : List Open} (hqueries : s.queries=query::rest) :
    ∃ n<s.left, Drains n (s.ended graphemes trace query.id query.outpost []).1 := by
  refine ⟨State.left {s with queries := rest},by simp [left,hqueries],?_⟩
  have hfound : s.queries.find? (·.id=query.id)=some query := by simp [hqueries]
  have herased : s.queries.erase query=rest := by simp [hqueries]
  simp only [ended,hfound,herased,ne_eq,not_true_eq_false,if_false]
  split
  · exact .inr le_rfl
  next ask _ =>
    cases ask with
    | read =>
      simp only [answered,take,any_nil,Bool.not_false,Bool.or_true,if_true]
      split
      · exact decideAndPump_drains _
      · exact .inr le_rfl
    | _ => exact .inr (by simp [answered,take])

theorem nextEvent_drains (h : s.Live True) (hwaiting : s.terminal.waiting≠[]) :
    ∃ event, s.nextEvent trace=some event ∧ ∃ n<s.left, Drains n (s.handle graphemes event) := by
  obtain ⟨newest,htrace⟩ := Option.isSome_iff_exists.mp (h.sound.traced hwaiting)
  unfold nextEvent
  cases hahead : s.terminal.ahead with
  | cons first rest =>
    refine ⟨_,rfl,State.left {s with terminal.ahead := rest.dropWhile (·.1 ≤ first.1)},?_,?_⟩
    · have hdropped := (dropWhile_sublist (l := rest) (·.1 ≤ first.1)).length_le
      simp only [left,hahead,length_cons]
      omega
    · simp only [handle,State.markReached,htrace,hahead]
      simpa using pump_drains newest _
  | nil =>
    cases hsounding : s.terminal.sounding with
    | some mark =>
      refine ⟨_,rfl,State.left {s with terminal.sounding := none},by simp [left,hsounding],?_⟩
      simp only [handle,State.markReached,htrace,hahead,hsounding,any_nil,Bool.false_eq_true,
        if_false,ne_eq,not_true_eq_false]
      repeat' split
      · exact .inr le_rfl
      · exact decideAndPump_drains _
      · exact pump_drains newest _
    | none =>
      have hread : s.asked .read := by simpa [hahead,hsounding] using h.woken.resolve_left hwaiting
      cases hqueries : s.queries with
      | nil => simp [asked,hqueries] at hread
      | cons query rest => exact ⟨_,rfl,ended_drains graphemes trace hqueries⟩

theorem drain_waiting {fuel : Nat} (h : s.Live True) (hfuel : s.left ≤ fuel) :
    (s.drain graphemes trace fuel).terminal.waiting=[] := by
  induction fuel generalizing s with
  | zero =>
    have hnone : s.terminal.waiting.length=0 := by
      unfold left at hfuel
      omega
    exact length_eq_zero_iff.mp hnone
  | succ fuel ih =>
    unfold drain
    split
    next hnone => exact hnone
    next hwaiting =>
      obtain ⟨event,hevent,n,hn,hdone | hleft⟩ := nextEvent_drains graphemes trace h hwaiting
      · simp only [hevent]
        cases fuel <;> simp [drain,hdone]
      · simp only [hevent]
        exact ih (h.handle graphemes event) (by omega)

/-- However the policy got there, once playback goes on and the outposts answer, nothing waits any
more: all of it is handed on, in no more events than are left. -/
theorem waiting_output_drains (s : State) :
    ((s.after graphemes events).drain graphemes trace
      (s.after graphemes events).left).terminal.waiting=[] :=
  drain_waiting graphemes trace (after_live graphemes s events) le_rfl

end Drains

end State

end Verbatim.Flood
