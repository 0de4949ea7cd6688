import Verbatim.Flood.Policy

namespace Verbatim.Flood

open Verbatim.Terminal Framework
open Verbatim.Core (NodeId QueryId OutpostId TraceId)

def handed (acts : List Act) : List Waiting :=
  acts.filterMap (fun act => match act with
    | .hand item _ => some item
    | _ => none)

@[simp] theorem handed_nil : handed []=[] := rfl

@[simp] theorem handed_append (a b : List Act) : handed (a++b)=handed a++handed b :=
  List.filterMap_append

@[simp] theorem handed_hand (item : Waiting) (spoken : Option Utterance) (acts : List Act) :
    handed (.hand item spoken::acts)=item::handed acts := rfl

def isBlankLine : Waiting → Bool
  | .line text _ => isBlank text
  | _ => false

def Act.Honest : Act → Prop
  | .hand item none => isBlankLine item ∨ isMark item
  | .hand item (some utterance) => utterance.content=contentOf item ∧ ¬isBlankLine item
  | _ => True

namespace State

variable {s t : State}

/-- Nothing of what waits changed, nor of the group being spoken. -/
structure Same (s t : State) : Prop where
  waiting : t.terminal.waiting=s.terminal.waiting
  group : t.terminal.group=s.terminal.group
  settings : t.settings=s.settings

theorem Same.refl (s : State) : Same s s := ⟨rfl,rfl,rfl⟩

variable {op : TextOp} {continues : Option TerminalAsk} {act : Act}

theorem request_some (h : s.request op continues=some (t,act)) :
    ∃ node, s.focused=some node ∧ act=.request s.nextQuery node op ∧
      t={s with
        nextQuery := s.nextQuery+1
        queries := s.queries++[⟨s.nextQuery,node.outpost,continues⟩]} := by
  unfold request at h
  split at h
  · exact absurd h (by simp)
  next node hnode =>
    cases h
    exact ⟨node,hnode,rfl,rfl⟩

/-- The policy's queries as Core's table has them. -/
def table (s : State) : Core.Queries (Option TerminalAsk) :=
  ⟨s.nextQuery,s.queries.map fun query => (query.id,⟨query.outpost,none,.read,query.continues⟩)⟩

/-- While numbers for queries are left, a request is asked as Core's table asks one. -/
theorem request_asks (h : s.request op continues=some (t,act)) (hfew : s.nextQuery<u64Max)
    (hnew : ∀ query∈s.queries, query.id≠s.nextQuery) :
    ∃ node, s.focused=some node ∧ t.table=s.table.ask node .read continues := by
  obtain ⟨node,hnode,-,rfl⟩ := request_some h
  have hfresh : s.table.next∉s.table.numbers := by
    simpa [table,Core.Queries.numbers] using hnew
  have hnext : satAdd s.nextQuery 1=s.nextQuery+1 := by
    unfold satAdd
    exact Nat.min_eq_left hfew
  refine ⟨node,hnode,?_⟩
  rw [Core.Queries.ask,Core.Queries.record_fresh hfresh]
  simp [table,hnext]

/-- The speech state, the settings and the focus are as they were. -/
structure Frame (s t : State) : Prop where
  terminal : t.terminal=s.terminal
  settings : t.settings=s.settings
  focus : t.focus=s.focus

theorem Frame.refl (s : State) : Frame s s := ⟨rfl,rfl,rfl⟩

theorem Frame.same (h : Frame s t) : Same s t := ⟨by rw [h.terminal],by rw [h.terminal],h.settings⟩

theorem setHeld_frame (s : State) (held : Bool) : Frame s (s.setHeld held) := by
  unfold setHeld
  split <;> exact ⟨rfl,rfl,rfl⟩

theorem request_frame (h : s.request op continues=some (t,act)) (held : Bool) :
    Frame s (t.setHeld held) ∧ handed [act]=[] := by
  obtain ⟨node,-,rfl,rfl⟩ := request_some h
  have hframe := setHeld_frame {s with
    nextQuery := s.nextQuery+1
    queries := s.queries++[⟨s.nextQuery,node.outpost,continues⟩]} held
  exact ⟨⟨hframe.terminal,hframe.settings,hframe.focus⟩,rfl⟩

theorem ask_frame (s : State) (hold : Bool) :
    Frame s (s.ask hold).1 ∧ handed (s.ask hold).2=[] := by
  unfold ask
  split
  · exact ⟨Frame.refl s,rfl⟩
  split
  · exact ⟨Frame.refl s,rfl⟩
  next hrequest => exact request_frame hrequest hold

theorem holdIfFull_frame (s : State) : Frame s s.holdIfFull.1 ∧ handed s.holdIfFull.2=[] := by
  unfold holdIfFull
  split
  · exact ⟨Frame.refl s,rfl⟩
  split
  · exact ⟨Frame.refl s,rfl⟩
  next hrequest => exact request_frame hrequest true

theorem goLive_frame (s : State) : Frame s s.goLive.1 ∧ handed s.goLive.2=[] := by
  unfold goLive
  split
  · exact ask_frame s false
  · exact ⟨Frame.refl s,rfl⟩

theorem countDown_frame (s : State) :
    Frame {s with terminal.group := s.terminal.group.map (· - 1)} s.countDown.1 ∧
      handed s.countDown.2=[] := by
  unfold countDown
  split
  next hgroup =>
    have hmap : s.terminal.group.map (·-1)=s.terminal.group := by simp [hgroup]
    rw [hmap]
    exact ⟨Frame.refl s,rfl⟩
  next left hgroup =>
    have hmap : s.terminal.group.map (·-1)=some (left-1) := by simp [hgroup]
    rw [hmap]
    simp only
    split
    · exact ask_frame _ true
    · exact ⟨Frame.refl _,rfl⟩

theorem takeOff_frame (s : State) (item : Waiting) (rest : List Waiting) :
    Frame {s with
      terminal.waiting := rest
      terminal.group := if isLine item then s.terminal.group.map (·-1) else s.terminal.group}
      (s.takeOff item rest).1 ∧ handed (s.takeOff item rest).2=[] := by
  unfold takeOff
  cases hline : isLine item with
  | true => exact countDown_frame {s with terminal.waiting := rest}
  | false => exact ⟨Frame.refl _,rfl⟩

theorem handOne_waiting (s : State) (trace : TraceId) (item : Waiting) (rest : List Waiting) :
    (s.handOne trace item rest).1.terminal.waiting=rest := by
  have hframe := (takeOff_frame s item rest).1.terminal
  unfold handOne
  simp only
  split
  · rw [hframe]
  · exact congrArg TerminalSpeechState.waiting hframe

theorem handOn_keeps {P : State → Prop} (trace : TraceId)
    (hP : ∀ s item rest, P s → s.terminal.waiting=item::rest → s.stopsAt item=false →
      P (s.handOne trace item rest).1) {waiting : List Waiting}
    (hwaiting : s.terminal.waiting=waiting) (h : P s) : P (s.handOn trace waiting).1 := by
  induction waiting generalizing s with
  | nil => exact h
  | cons item rest ih =>
    unfold handOn
    split
    · exact h
    next hgoes =>
      exact ih (handOne_waiting s trace item rest)
        (hP s item rest h hwaiting (by simpa using hgoes))

theorem full_pos (s : State) : 0<s.full := by
  unfold full Settings.fullLines
  omega

end State

open State

/-- A relation of the policy's steps: it composes, holds of what leaves the waiting output alone,
of an item taken off its front, and of a decision once the group was heard. -/
structure Closed (R : State → State → List Act → Prop) : Prop where
  trans : R s t a → R t u b → R s u (a++b)
  quiet : Same s t → handed acts=[] → R s t acts
  pop : s.terminal.waiting=item::rest → (s.terminal.group=some 0 → belongs item) →
    Same {s with
      terminal.waiting := rest
      terminal.group := if isLine item then s.terminal.group.map (·-1) else s.terminal.group} t →
    handed asks=[] → (Act.hand item spoken).Honest → R s t (asks++[.hand item spoken])
  decided : s.heard → R s s.decide []

namespace Closed

variable {R : State → State → List Act → Prop} (hR : Closed R)

include hR

theorem handOne (trace : TraceId) {item : Waiting} {rest : List Waiting}
    (hwaiting : s.terminal.waiting=item::rest) (hgoes : s.stopsAt item=false) :
    R s (s.handOne trace item rest).1 (s.handOne trace item rest).2 := by
  have hgroup (hzero : s.terminal.group=some 0) : belongs item := by
    simp only [State.stopsAt,hzero,decide_true,Bool.true_and,Bool.or_eq_false_iff,
      Bool.not_eq_false'] at hgoes
    exact hgoes.2
  obtain ⟨hframe,hasks⟩ := takeOff_frame s item rest
  have hsame := hframe.same
  unfold State.handOne
  generalize s.takeOff item rest=t at hsame hasks
  simp only
  split
  next hsilent =>
    refine hR.pop hwaiting hgroup hsame hasks ?_
    unfold State.silent at hsilent
    split at hsilent
    · exact Or.inl hsilent
    · exact Or.inr (Bool.and_elim_left hsilent)
  next hsilent =>
    have hspoken : (Act.hand item (some (t.1.speak trace item).2)).Honest := by
      refine ⟨rfl,fun hblank => hsilent ?_⟩
      unfold isBlankLine at hblank
      split at hblank
      · exact hblank
      · exact absurd hblank (by simp)
    exact hR.pop hwaiting hgroup ⟨hsame.waiting,hsame.group,hsame.settings⟩ hasks hspoken

theorem handOn (trace : TraceId) {waiting : List Waiting} (hwaiting : s.terminal.waiting=waiting) :
    R s (handOn trace waiting s).1 (handOn trace waiting s).2 := by
  induction waiting generalizing s with
  | nil => exact hR.quiet (Same.refl s) rfl
  | cons item rest ih =>
    unfold State.handOn
    split
    · exact hR.quiet (Same.refl s) rfl
    next hgoes =>
      exact hR.trans (hR.handOne trace hwaiting (by simpa using hgoes))
        (ih (handOne_waiting s trace item rest))

theorem pumpLoop (fuel : Nat) (trace : TraceId) (s : State) :
    R s (pumpLoop fuel trace s).1 (pumpLoop fuel trace s).2 := by
  induction fuel generalizing trace s with
  | zero => exact hR.quiet (Same.refl s) rfl
  | succ fuel ih =>
    have hhand := hR.handOn trace (s := s) rfl
    unfold State.pumpLoop
    generalize State.handOn trace s.terminal.waiting s=r at hhand
    obtain ⟨t,acts⟩ := r
    simp only at hhand ⊢
    split
    next hheard =>
      split
      · have hnoted : R t {t with terminal.deciding := true} [] := hR.quiet ⟨rfl,rfl,rfl⟩ rfl
        simpa using hR.trans hhand hnoted
      split
      · exact hhand
      next newest _ =>
        have hdecided := hR.decided (Bool.and_elim_right hheard)
        have hmore := ih newest t.decide
        generalize State.pumpLoop fuel newest t.decide=r at hmore
        obtain ⟨u,more⟩ := r
        have hlive := goLive_frame u
        have hall := hR.trans hhand (hR.trans hdecided (hR.trans hmore
          (hR.quiet hlive.1.same hlive.2)))
        simpa using hall
    · exact hhand

theorem pump (s : State) (trace : TraceId) : R s (s.pump trace).1 (s.pump trace).2 :=
  hR.pumpLoop _ trace s

theorem decideAndPump (h : R s s.decide []) : R s s.decideAndPump.1 s.decideAndPump.2 := by
  unfold State.decideAndPump
  split
  · exact hR.quiet (Same.refl s) rfl
  next trace _ =>
    have hpump := hR.pump s.decide trace
    have hlive := goLive_frame (s.decide.pump trace).1
    have hall := hR.trans h (hR.trans hpump (hR.quiet hlive.1.same hlive.2))
    simpa using hall

theorem markReached (s : State) (mark : SpeechMark) :
    R s (s.markReached mark).1 (s.markReached mark).2 := by
  unfold State.markReached
  split
  · exact hR.quiet (Same.refl s) rfl
  next trace _ =>
    split
    · have hplays : R s {s with
          terminal.ahead := s.terminal.ahead.dropWhile (·.1 ≤ mark)} [] :=
        hR.quiet ⟨rfl,rfl,rfl⟩ rfl
      simpa using hR.trans hplays (hR.pump _ trace)
    split
    · exact hR.quiet (Same.refl s) rfl
    have hsounded : R s {s with terminal.sounding := none} [] := hR.quiet ⟨rfl,rfl,rfl⟩ rfl
    simp only
    split
    next hheard =>
      split
      · exact hR.quiet ⟨rfl,rfl,rfl⟩ rfl
      · simpa using hR.trans hsounded (hR.decideAndPump (hR.decided hheard))
    · simpa using hR.trans hsounded (hR.pump _ trace)

end Closed

end Verbatim.Flood
