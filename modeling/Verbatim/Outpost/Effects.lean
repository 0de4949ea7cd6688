import Verbatim.Outpost.Reducer

namespace Verbatim.Outpost

open ReaderRules Framework Option List

def Effect.program : Effect → Option Program
  | .dispatch program => some program
  | _ => none

def programs (effects : List Effect) : List Program := effects.filterMap Effect.program

def OutpostToCore.isIdleAnswer : OutpostToCore → Bool
  | .idleAnswer _ => true
  | _ => false

/-- What a step commits: a program's change, a published walk's, or the title read at the gap
record's bound. -/
def Step.changes : Step → List Change
  | .input (.commit _ change) => [change]
  | .input (.published _ change _) => change.toList
  | .input (.gapBoundTested _ _ title) => title.toList
  | _ => []

/-- Whether an effect answers no idle query, and starts nothing but what finishes a cut. -/
def Effect.isPlain : Effect → Bool
  | .send message => !message.isIdleAnswer
  | .dispatch ⟨_,_,_,.finish _ _,_⟩ => true
  | .dispatch _ => false
  | _ => true

@[simp] theorem programs_append (xs ys : List Effect) :
    programs (xs++ys)=programs xs++programs ys := filterMap_append

/-- What the reducer keeps of a program, its query apart. -/
def Current.silent (current : Current) : Current := {current with running := none}

theorem withItem_withItem {T : Type} (f : InFlight T) (first second : T → T) :
    (f.withItem first).withItem second=f.withItem fun item => second (first item) := by
  cases h : f.running <;> simp [InFlight.withItem,h]

namespace Reducer

variable {A : Type}

/-- The reducer but for what sending a message changes: the gap record, the queries not answered,
the query of the program in flight, and the record of hung windows. -/
def unspoken (s : Reducer) : Reducer :=
  {s with
    intake := {s.intake with gap := {}}
    queries := []
    hung := []
    flight := s.flight.withItem Current.silent}

/-- A step that sends messages and dispatches nothing. -/
structure Speaks (step : Reducer → Reduced) : Prop where
  same : ∀ s, (step s).1.unspoken=s.unspoken
  programs : ∀ s, programs (step s).2=[]

theorem Speaks.andThen {first second : Reducer → Reduced} (hfirst : Speaks first)
    (hsecond : Speaks second) : Speaks fun s => andThen (first s) second := by
  refine ⟨fun s => ?_,fun s => ?_⟩
  · exact (hsecond.same _).trans (hfirst.same s)
  · rw [Reducer.andThen,programs_append,hfirst.programs,hsecond.programs,append_nil]

variable {step : A → Reducer → Reduced}

theorem Speaks.onSome (h : ∀ a, Speaks (step a))
    (given : Option A) : Speaks (onSome given step) := by
  cases given with
  | none => exact ⟨fun _ => rfl,fun _ => rfl⟩
  | some a => exact h a

theorem Speaks.onEach (h : ∀ a, Speaks (step a)) (list : List A) : Speaks (onEach step list) := by
  induction list with
  | nil => exact ⟨fun _ => rfl,fun _ => rfl⟩
  | cons a list ih => exact (h a).andThen ih

theorem answered_unspoken (s : Reducer) (id : RequestId) : (s.answered id).unspoken=s.unspoken := by
  simp only [answered,unspoken,withItem_withItem]
  congr 2
  funext current
  split <;> rfl

theorem ofRequest_unspoken (s : Reducer) (request : Request) {change : Current → Current}
    (h : ∀ current, (change current).silent=current.silent) :
    (s.ofRequest request change).unspoken=s.unspoken := by
  unfold ofRequest
  split
  · simp only [unspoken,withItem_withItem,h]
  · rfl

theorem send_speaks (message : OutpostToCore) : Speaks (send message) := by
  refine ⟨fun s => ?_,fun s => rfl⟩
  unfold send
  simp only
  split
  · rw [answered_unspoken]
    split <;> rfl
  · split <;> rfl

theorem hangSeen_speaks (request : Request) (window : Window) :
    Speaks (hangSeen request window) := by
  refine ⟨fun s => ?_,fun s => ?_⟩ <;> unfold hangSeen
  · split
    · rfl
    split
    · rfl
    split
    · exact (send_speaks _).same _
    · rfl
  · split
    · rfl
    split
    · rfl
    split
    · exact (send_speaks _).programs _
    · rfl

theorem found_speaks (request : Request) (evidence : Window × Found) :
    Speaks (found request evidence) := by
  obtain ⟨window,hung | answered⟩ := evidence
  · exact hangSeen_speaks request window
  · exact ⟨fun _ => rfl,fun _ => rfl⟩

theorem answerWatch_speaks (now : Now) (answer : Answer) : Speaks (answerWatch now answer) := by
  cases answer with
  | ended opened why =>
    exact ⟨(send_speaks (watchEnded opened now.wallUs)).same,fun _ => rfl⟩
  | evidence opened reply calls awaitedAtUs =>
    exact ⟨fun s => (send_speaks _).same s,fun _ => rfl⟩
  | abandoned opened => exact ⟨fun s => (send_speaks _).same s,fun _ => rfl⟩

theorem answerLeft_speaks (outcome : QueryOutcome) (running : RequestId × TraceId) :
    Speaks (answerLeft outcome running) := ⟨fun s => (send_speaks _).same s,fun _ => rfl⟩

theorem subscriptionEffects_speaks (applied : Applied) (now : Now) :
    Speaks (subscriptionEffects applied now) := by
  refine (Speaks.onEach (answerWatch_speaks now) applied.answers).andThen ⟨fun _ => rfl,fun _ => ?_⟩
  cases applied.subscribe <;> cases applied.unfollowed.isEmpty <;> simp [programs,Effect.program]

theorem result_speaks (request : Request) (message : OutpostToCore) :
    Speaks (result request message) := by
  refine ⟨fun s => ?_,fun s => rfl⟩
  exact ((send_speaks message).same _).trans (ofRequest_unspoken s request fun _ => rfl)

/-- The effects of a transition are plain, or messages of `sent`. -/
def Emits (sent : OutpostToCore → Prop) (out : Reduced) : Prop :=
  ∀ effect∈out.2, effect.isPlain=true ∨ ∃ message, sent message ∧ effect=.send message

variable {sent : OutpostToCore → Prop} {s : Reducer}

namespace Emits

theorem nothing : Emits sent (s,[]) := fun _ h => absurd h not_mem_nil

theorem one {effect : Effect} (h : effect.isPlain=true) : Emits sent (s,[effect]) :=
  forall_mem_singleton.mpr (.inl h)

theorem oneUnless {effect : Effect} (h : effect.isPlain=true) (c : Prop) [Decidable c] :
    Emits sent (s,if c then [] else [effect]) := by
  split
  · exact nothing
  · exact one h

theorem andThen {out : Reduced} {next : Reducer → Reduced}
    (h : Emits sent out) (h' : ∀ s, Emits sent (next s)) : Emits sent (andThen out next) :=
  forall_mem_append.mpr ⟨h,h' out.1⟩

theorem onSome {given : Option A}
    (h : ∀ a∈given, Emits sent (step a s)) : Emits sent (onSome given step s) := by
  cases given with
  | none => exact nothing
  | some a => exact h a rfl

theorem onEach (h : ∀ a s, Emits sent (step a s))
    (list : List A) (s : Reducer) : Emits sent (onEach step list s) := by
  induction list generalizing s with
  | nil => exact nothing
  | cons a list ih => exact (h a s).andThen ih

end Emits

theorem hangSeen_emits (request : Request) (window : Window) :
    Emits sent (s.hangSeen request window) := by
  unfold hangSeen
  split
  · exact .nothing
  split
  · exact .nothing
  split
  · exact .one rfl
  · exact .nothing

theorem answerWatch_emits (now : Now) (answer : Answer) (s : Reducer) :
    Emits sent (s.answerWatch now answer) := by
  cases answer with
  | ended opened why => exact Emits.andThen (.one rfl) fun _ => .one rfl
  | evidence opened reply calls awaitedAtUs | abandoned opened => exact .one rfl

theorem subscriptionEffects_emits (applied : Applied) (now : Now) (s : Reducer) :
    Emits sent (s.subscriptionEffects applied now) := by
  refine (Emits.onEach (answerWatch_emits now) applied.answers s).andThen fun s => ?_
  cases applied.subscribe <;> cases applied.unfollowed.isEmpty <;> simp [Emits,Effect.isPlain]

theorem commit_emits (request : Request) {change : Change} (now : Now)
    (h : ∀ message∈change.result, sent message) : Emits sent (s.commit request change now) := by
  refine Emits.andThen (.onSome fun evidence _ => ?_) fun s => ?_
  · obtain ⟨window,hung | answered⟩ := evidence
    · exact hangSeen_emits request window
    · exact .nothing
  · refine Emits.andThen (.onSome fun message hmessage => ?_) (fun s => ?_)
    · exact forall_mem_singleton.mpr (.inr ⟨message,h message hmessage,rfl⟩)
    · exact Emits.andThen (.oneUnless rfl _) (subscriptionEffects_emits _ now)

theorem pushAll_emits (entries : List Entry) (s : Reducer) : Emits sent (pushAll entries s) :=
  .onEach (fun _ _ => .oneUnless rfl _) entries s

theorem decided_emits (decision : Decision Current) (now : Now) :
    Emits sent (s.decided decision now) := by
  cases decision with
  | nothing => exact .nothing
  | ask ask => cases ask <;> exact .one rfl
  | abandon a =>
    refine Emits.andThen (.one rfl) fun s => ?_
    refine Emits.andThen (.onSome fun answer _ => answerWatch_emits now answer s) fun s => ?_
    exact Emits.andThen (.onSome fun _ _ => .one rfl) fun _ => .nothing

theorem gapBound_emits : Emits sent s.gapBound := by
  unfold gapBound
  split
  · exact .nothing
  split
  · exact .nothing
  split
  · exact .nothing
  · exact .one rfl

theorem finished_emits (request : Request) (reported panicked : Bool) (cut : Option Cut)
    (now : Now) : Emits sent (s.finished request reported panicked cut now) := by
  unfold finished
  split
  · exact .nothing
  simp only
  split
  · unfold dispatchFinish
    split
    · exact .nothing
    · exact .one rfl
  · refine Emits.andThen (.onSome fun answer _ => answerWatch_emits now answer _) (fun s => ?_)
    exact Emits.andThen (.onSome fun _ _ => .one rfl) fun _ => .nothing

theorem start_emits (s : Reducer) (st : Step) (now : Now) :
    Emits (fun message => ∃ change∈st.changes, message∈change.result) (s.start st now) := by
  cases st with
  | tick =>
    refine Emits.andThen (decided_emits _ now) fun s => ?_
    split
    · exact gapBound_emits
    · exact .nothing
  | input input =>
    cases input with
    | entry entry source | withoutListener | forwardingEnded through => exact pushAll_emits _ _
    | cancel requestId => exact Emits.onSome fun trace _ => .one rfl
    | commit request change =>
      unfold start takeIn
      simp only
      split
      · exact commit_emits request now fun _ h => ⟨change,mem_cons_self,h⟩
      · exact .nothing
    | walkReturned request past => exact decided_emits _ now
    | finished request reported panicked cut =>
    exact finished_emits request reported panicked cut now
    | released nodes anchors objects =>
      refine Emits.andThen (.oneUnless rfl _) fun s => ?_
      exact Emits.andThen (subscriptionEffects_emits _ now s) fun _ => .nothing
    | gapBound => exact gapBound_emits
    | gapBoundTested request related title =>
      unfold start takeIn gapBoundTested
      simp only
      split
      · exact .nothing
      split
      · refine Emits.andThen (.onSome fun change hchange => ?_) (fun _ => .nothing)
        exact commit_emits request now fun _ h => ⟨change,mem_toList.mpr hchange,h⟩
      · exact .nothing
    | judged request verdict window =>
      unfold start takeIn
      simp only
      split
      · exact .nothing
      · refine Emits.andThen (.onSome fun window _ => hangSeen_emits request window) (fun s => ?_)
        exact decided_emits _ now
    | published request change thenAbandon =>
      refine Emits.andThen (.onSome fun got hgot => ?_) fun s => decided_emits _ now
      have hgiven := (filter_eq_some_iff.mp hgot).1
      exact commit_emits request now fun _ h => ⟨got,mem_toList.mpr hgiven,h⟩
    | close => exact .oneUnless rfl _
    | _ => exact .nothing

end Reducer

end Verbatim.Outpost
