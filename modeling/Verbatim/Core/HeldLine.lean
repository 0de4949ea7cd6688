import Verbatim.Core.HeldSteps

namespace Verbatim.Core

open Queries Option List Nat Framework

variable {P : Parts} {h : Handlers P} {before : List (WaitingKey P)} {s s' s'' : SrState P}
  {log log' : Log P}

/-- The key or command at the front of the line that waits for the key ahead. -/
def SrState.front (s : SrState P) : Option TraceId :=
  s.held.waiting.head?.bind fun front => front.waits.map (·.1)

/-- Nothing waits, or the front of the line waits for the key ahead and has the deadline. -/
def FrontBounded (s : SrState P) : Prop :=
  s.held.waiting=[] ∨ s.held.awaitingWatch.isSome ∧ ∃ trace, s.front=some trace ∧
    s.held.bounded=some trace

/-- The line cannot stall: the key read or the front of the line has the deadline. -/
structure Armed (s : SrState P) : Prop where
  read : ReadBounded s
  wait : s.readingHeld=none → FrontBounded s

/-- What a whole step does: the line moves on, and does not come to a stall. -/
structure Keeps (before : List (WaitingKey P)) (s s' : SrState P) (log : Log P) : Prop
    extends Step before s s' log where
  armed : Armed s → Armed s'

abbrev KeepsLine (s : SrState P) (r : Logged P) : Prop :=
  Given s.queries.Good s r.1 (Keeps s.line s r.1 r.2)

theorem Quiet.frontBounded (hquiet : Quiet s s' log) (hs : FrontBounded s) : FrontBounded s' := by
  obtain hempty | ⟨hawaits,trace,hfront,hbounded⟩ := hs
  · exact .inl (hquiet.held.waiting.trans hempty)
  refine .inr ⟨hquiet.held.awaiting.trans hawaits,trace,?_,hquiet.held.bounded.trans hbounded⟩
  rw [SrState.front,hquiet.held.waiting]
  exact hfront

theorem Quiet.keeps (hquiet : Quiet s s' log) : Keeps s.line s s' log where
  toStep := hquiet.step
  armed hs := ⟨hquiet.step.bounded hs.read,fun hnone =>
    hquiet.frontBounded (hs.wait ((readingHeld_of_reads hquiet.reads).symm.trans hnone))⟩

theorem Keeps.trans (hkeeps : Keeps before s s' log) (hkeeps' : Keeps s'.line s' s'' log') :
    Keeps before s s'' (log++log') where
  toStep := hkeeps.toStep.trans hkeeps'.toStep
  armed hs := hkeeps'.armed (hkeeps.armed hs)

/-- A step may start in the state `s₀` that `s` was turned into. -/
structure Starts (s s₀ : SrState P) : Prop where
  next : s₀.queries.next=s.queries.next
  reads : ∀ id, s.queries.Plain id → s₀.queries.Plain id
  deadline : ∀ trace, s₀.held.bounded=some trace → s.held.bounded=some trace
  bounded : ReadBounded s → ReadBounded s₀

theorem Starts.step {s₀ : SrState P} (hstarts : Starts s s₀) (hstep : Step before s₀ s' log) :
    Step before s s' log where
  good := hstep.good
  next := hstarts.next ▸ hstep.next
  reads id hlt hplain := hstep.reads id (hstarts.next ▸ hlt) (hstarts.reads id hplain)
  asked := hstep.asked
  line := hstep.line
  passes := hstep.passes
  deadline deadline hdeadline := hstep.deadline deadline
    (fun trace htrace => hdeadline trace (hstarts.deadline trace htrace))
  bounded hs := hstep.bounded (hstarts.bounded hs)

theorem starts_held {held : HeldKeys P} (hbounded : held.bounded=s.held.bounded) :
    Starts s {s with held} :=
  ⟨rfl,fun _ hplain => hplain,fun _ htrace => hbounded ▸ htrace,
    fun hs reading hreading => hbounded ▸ hs reading hreading⟩

theorem line_of_none (hnone : s.readingHeld=none) : s.line=s.held.waiting := by
  rw [SrState.line,hnone]
  rfl

/-- What the loop does with the front of the line in a state `s`: it waits for the key ahead, with
the deadline it has or a new one, or it is taken and handled. -/
inductive Turns (h : Handlers P) (fuel : Nat) (s : SrState P) (front : WaitingKey P)
    (waiting : List (WaitingKey P)) : SrState P × Log P × Option TraceId → Prop
  | waits {trace : TraceId} (hawaits : s.held.awaitingWatch.isSome)
      (hfront : front.waits.map (·.1)=some trace) (hbounded : s.held.bounded=some trace) :
      Turns h fuel s front waiting (s,{},some trace)
  | bound {trace : TraceId} (ms : Nat) (hawaits : s.held.awaitingWatch.isSome)
      (hfront : front.waits.map (·.1)=some trace) :
      Turns h fuel s front waiting ({s with held := {s.held with bounded := some trace}},
        {effects := [.boundHeldKey (some (trace,ms))]},some trace)
  | taken {r : Logged P} {rest : SrState P × Log P × Option TraceId}
      (awaitingWatch : Option QueryId)
      (hr : handleFront h {s with held := {s.held with waiting, awaitingWatch}} front=r)
      (hrest : nextHeldLoop h fuel r.1 true=rest) :
      Turns h fuel s front waiting (rest.1,r.2.forKey front.trace++rest.2.1,rest.2.2)

/-- What a step that ends with the loop over the line does. -/
structure Resumes (before : List (WaitingKey P)) (s s' : SrState P) (log : Log P) : Prop
    extends Step before s s' log where
  armed : ReadBounded s → Armed s'

theorem Resumes.keeps (hresumes : Resumes before s s' log) : Keeps before s s' log :=
  ⟨hresumes.toStep,fun hs => hresumes.armed hs.read⟩

theorem Step.resumes (hstep : Step before s s' log) (hresumes : Resumes s'.line s' s'' log') :
    Resumes before s s'' (log++log') :=
  ⟨hstep.trans hresumes.toStep,fun hs => hresumes.armed (hstep.bounded hs)⟩

/-- A step went on with the front of the line: it was handled first, or its caret is read now. -/
def Advances (front : WaitingKey P) (s' : SrState P) (log : Log P) : Prop :=
  (∃ rest, log.handled=front::rest) ∨
    log.handled=[] ∧ ∃ reading, s'.readingHeld=some reading ∧ front=.held reading.2.key

theorem Starts.resumes {s₀ : SrState P} (hstarts : Starts s s₀)
    (hresumes : Resumes before s₀ s' log) :
    Resumes before s s' log :=
  ⟨hstarts.step hresumes.toStep,fun hs => hresumes.armed (hstarts.bounded hs)⟩

theorem Quiet.before_resumes (hquiet : Quiet s s' log) (hresumes : Resumes before s' s'' log') :
    Resumes before s s'' (log++log') :=
  ⟨hquiet.step.chain hresumes.toStep (by rw [hquiet.handled]; rfl),
    fun hs => hresumes.armed (hquiet.step.bounded hs)⟩

theorem bound_step (hgood : s.queries.Good) (hnone : s.readingHeld=none)
    (deadline : Option (TraceId × Nat)) :
    Step s.line s {s with held := {s.held with bounded := deadline.map (·.1)}}
      {effects := [.boundHeldKey deadline]} where
  good := hgood
  next := le_refl _
  reads _ _ hplain := hplain
  asked := by simp [reviewed,Effect.review]
  line := rfl
  passes := rfl
  deadline _ _ _ htrace := htrace
  bounded _ reading hreading := by
    have hreading : s.readingHeld=some reading := hreading
    rw [hnone] at hreading
    cases hreading

variable {waiting : List (WaitingKey P)} {front : WaitingKey P} (behind : Bool)

theorem nextHeldLoop_turns (fuel : Nat) (hnone : s.readingHeld=none)
    (hwaiting : s.held.waiting=front::waiting) :
    ∃ s₁, Quietly s (s₁,{}) ∧ s₁.held=s.held ∧
      Turns h fuel s₁ front waiting (nextHeldLoop h (fuel+1) s behind) := by
  refine ⟨if behind then laterKey s s.held.passedAtMs else s,?_,?_,?_⟩
  · split
    · exact laterKey_quiet _
    · exact .refl
  · split <;> rfl
  · have hreading : ¬s.readingHeld.isSome := not_isSome_iff_eq_none.mpr hnone
    rw [nextHeldLoop,if_neg hreading,hwaiting]
    simp only
    generalize (if behind=true then laterKey s s.held.passedAtMs else s)=s₁
    split
    next trace pressedAtMs hblocks =>
      obtain ⟨hblocks,-⟩ := filter_eq_some_iff.mp hblocks
      split at hblocks
      next hawaits =>
        have hfront : front.waits.map (·.1)=some trace := by rw [hblocks]; rfl
        split
        next hbounded => exact .waits hawaits hfront hbounded
        · exact .bound _ hawaits hfront
      · cases hblocks
    · exact .taken _ rfl rfl

theorem Turns.step {fuel : Nat} {r : SrState P × Log P × Option TraceId}
    (hturns : Turns h fuel s front waiting r) (hwaiting : s.held.waiting=front::waiting)
    (ih : ∀ s : SrState P, let r := nextHeldLoop h fuel s true
      Given s.queries.Good s r.1 (Step s.line s r.1 r.2.1)) :
    Given (s.queries.Good ∧ s.readingHeld=none) s r.1 (Step s.line s r.1 r.2.1) := by
  cases hturns with
  | waits => exact .refl fun hs => .refl hs.1
  | bound ms =>
    exact ⟨rfl,fun _ => le_refl _,fun _ ⟨hgood,hnone⟩ => bound_step hgood hnone (some (_,ms))⟩
  | @taken r rest awaitingWatch hr hrest =>
    subst hr hrest
    have hfront := handleFront_step (h := h)
      (s := {s with held := {s.held with waiting, awaitingWatch}}) front
    have hstep := hfront.trans (ih _) (fun _ hstep => hstep.good)
      fun _ hstep hrest => (hstep.forKey front.trace).trans hrest
    refine ⟨hstep.exiting,hstep.next,fun hfew ⟨hgood,hnone⟩ => ?_⟩
    have hline : front::SrState.line {s with held := {s.held with waiting, awaitingWatch}} =
        s.line := by
      rw [line_of_none hnone,hwaiting,line_of_none (by exact hnone)]
    exact hline ▸ Starts.step (starts_held (by rfl)) (hstep.holds hfew ⟨hgood,hnone⟩)

theorem nextHeldLoop_step (fuel : Nat) :
    let r := nextHeldLoop h fuel s behind
    Given s.queries.Good s r.1 (Step s.line s r.1 r.2.1) := by
  induction fuel generalizing s behind with
  | zero => exact .refl .refl
  | succ fuel ih =>
    by_cases hreading : s.readingHeld.isSome
    · rw [nextHeldLoop,if_pos hreading]
      exact .refl .refl
    have hnone := not_isSome_iff_eq_none.mp hreading
    cases hwaiting : s.held.waiting with
    | nil =>
      rw [nextHeldLoop,if_neg hreading,hwaiting]
      exact .refl .refl
    | cons front waiting =>
      obtain ⟨s₁,hquiet,hheld,hturns⟩ := nextHeldLoop_turns (h := h) behind fuel hnone hwaiting
      exact Given.trans hquiet (hturns.step (hheld ▸ hwaiting) fun _ => ih true)
        (fun _ hquiet => ⟨hquiet.good,(readingHeld_of_reads hquiet.reads).trans hnone⟩)
        fun _ hquiet hstep => hquiet.step.trans hstep

theorem passHeld_spec (key : HeldKey P) (atMs : Nat) :
    let r := passHeld h s key atMs
    Given s.queries.Good s r.1 (r.1.held.waiting=s.held.waiting ∧ r.2.handled=[.held key]) := by
  have hquiet := watchHeld_quiet (h := h)
    (s := {s with held := {s.held with passedAtMs := atMs}}) key atMs
  refine ⟨hquiet.exiting,hquiet.next,fun hfew hs => ?_⟩
  have hwatch := hquiet.holds hfew hs
  exact ⟨hwatch.held.waiting,congrArg (·++[WaitingKey.held key]) hwatch.handled⟩

/-- The front of the line once taken: it is handled, or its caret is read. -/
theorem handleFront_spec (front : WaitingKey P) :
    let r := handleFront h s front
    Given (s.queries.Good ∧ s.readingHeld=none) s r.1
      (r.1.held.waiting=s.held.waiting ∧ Advances front r.1 r.2) := by
  cases front with
  | held key =>
    rw [handleFront,startHeld]
    split
    · exact (passHeld_spec key key.pressedAtMs).imp And.left
        fun _ ⟨hwaiting,hhandled⟩ => ⟨hwaiting,.inl ⟨[],hhandled⟩⟩
    next node _ =>
      refine ⟨rfl,fun hfew => le_of_lt (next_lt_ask hfew),fun _ ⟨_,hnone⟩ =>
        ⟨rfl,.inr ⟨rfl,(s.queries.next,⟨node,key⟩),?_,rfl⟩⟩⟩
      rw [emitting,SrState.readingHeld,reads_ask_heldRead,heldReads_remove,
        head?_eq_none_iff.mp hnone]
      rfl
  | later input =>
    exact (keyInput_quiet _).imp And.left fun _ hquiet =>
      ⟨hquiet.held.waiting,.inl ⟨[],congrArg (·++[_]) hquiet.handled⟩⟩
  | command input =>
    exact (runActs_quiet _).imp And.left fun _ hquiet =>
      ⟨hquiet.held.waiting,.inl ⟨[],congrArg (·++[_]) hquiet.handled⟩⟩

/-- Where the loop ends: a key is read, none waits, or the front waits with the deadline. -/
theorem nextHeldLoop_ends (hgood : s.queries.Good) (fuel : Nat) (hfuel : s.held.waiting.length<fuel)
    (hfew : (nextHeldLoop h fuel s behind).1.queries.next<u64Max)
    (hnone : (nextHeldLoop h fuel s behind).1.readingHeld=none) :
    (nextHeldLoop h fuel s behind).1.held.waiting=[] ∨
      FrontBounded (nextHeldLoop h fuel s behind).1 ∧
        (nextHeldLoop h fuel s behind).2.2=(nextHeldLoop h fuel s behind).1.held.bounded := by
  induction fuel generalizing s behind with
  | zero => exact absurd hfuel (not_lt_zero _)
  | succ fuel ih =>
    by_cases hreading : s.readingHeld.isSome
    · rw [nextHeldLoop,if_pos hreading] at hnone
      exact absurd hnone (isSome_iff_ne_none.mp hreading)
    cases hwaiting : s.held.waiting with
    | nil =>
      rw [nextHeldLoop,if_neg hreading,hwaiting]
      exact .inl hwaiting
    | cons front waiting =>
      have hreads := not_isSome_iff_eq_none.mp hreading
      obtain ⟨s₁,hquiet,hheld,hturns⟩ := nextHeldLoop_turns (h := h) behind fuel hreads hwaiting
      have hhead : s₁.front=front.waits.map (·.1) := by
        rw [SrState.front,hheld,hwaiting]
        rfl
      have hlater := (hturns.step (hheld ▸ hwaiting) fun _ => nextHeldLoop_step true fuel).next hfew
      have hfirst := hquiet.holds (lt_of_le_of_lt hlater hfew) hgood
      generalize nextHeldLoop h (fuel+1) s behind=r at hturns hnone hfew
      cases hturns with
      | @waits trace hawaits hfront hbounded =>
        exact .inr ⟨.inr ⟨hawaits,trace,hhead.trans hfront,hbounded⟩,hbounded.symm⟩
      | @bound trace ms hawaits hfront =>
        exact .inr ⟨.inr ⟨hawaits,trace,hhead.trans hfront,rfl⟩,rfl⟩
      | @taken r rest awaitingWatch hr hrest =>
        subst hr hrest
        have hleft := (nextHeldLoop_step (h := h) true fuel).next hfew
        have hstart : s₁.queries.Good ∧ s₁.readingHeld=none :=
          ⟨hfirst.good,(readingHeld_of_reads hfirst.reads).trans hreads⟩
        have hstep := (handleFront_step (h := h)
          (s := {s₁ with held := {s₁.held with waiting, awaitingWatch}}) front).holds
          (lt_of_le_of_lt hleft hfew) hstart
        have hspec := (handleFront_spec (h := h)
          (s := {s₁ with held := {s₁.held with waiting, awaitingWatch}}) front).holds
          (lt_of_le_of_lt hleft hfew) hstart
        refine ih true hstep.good ?_ hfew hnone
        rw [hspec.1]
        rw [hwaiting,length_cons] at hfuel
        exact lt_of_succ_lt_succ hfuel

theorem nextHeld_step :
    let r := nextHeld h s behind
    Given s.queries.Good s r.1 (Step s.line s r.1 r.2) := by
  have hloop := nextHeldLoop_step (h := h) (s := s) behind (s.held.waiting.length+1)
  simp only [nextHeld]
  split
  next hclear =>
    exact ⟨hloop.exiting,hloop.next,fun hfew hgood => (hloop.holds hfew hgood).trans
      (bound_step (hloop.holds hfew hgood).good (isNone_iff_eq_none.mp hclear.1) none)⟩
  · exact hloop

theorem nextHeld_armed (hfew : (nextHeld h s behind).1.queries.next<u64Max) (hgood : s.queries.Good)
    (hs : ReadBounded s) : Armed (nextHeld h s behind).1 := by
  refine ⟨((nextHeld_step behind).holds hfew hgood).bounded hs,?_⟩
  have hends := nextHeldLoop_ends (h := h) behind hgood (s.held.waiting.length+1) (lt_succ_self _)
  simp only [nextHeld] at hfew ⊢
  split at hfew
  next hclear =>
    rw [if_pos hclear]
    intro hnone
    obtain hempty | ⟨-,hblocked⟩ := hends hfew hnone
    · exact .inl hempty
    · exact absurd hblocked.symm hclear.2.2
  next hkept =>
    rw [if_neg hkept]
    intro hnone
    obtain hempty | ⟨hfront,-⟩ := hends hfew hnone
    · exact .inl hempty
    · exact hfront

theorem nextHeld_resumes :
    let r := nextHeld h s behind
    Given s.queries.Good s r.1 (Resumes s.line s r.1 r.2) :=
  ⟨(nextHeld_step behind).exiting,(nextHeld_step behind).next,fun hfew hgood =>
    ⟨(nextHeld_step behind).holds hfew hgood,nextHeld_armed behind hfew hgood⟩⟩

theorem nextHeld_advances (hfew : (nextHeld h s behind).1.queries.next<u64Max)
    (hgood : s.queries.Good) (hnone : s.readingHeld=none)
    (hwaiting : s.held.waiting=front::waiting) (hawaits : s.held.awaitingWatch=none) :
    Advances front (nextHeld h s behind).1 (nextHeld h s behind).2 := by
  have hloop (hfew : (nextHeldLoop h (s.held.waiting.length+1) s behind).1.queries.next<u64Max) :
      Advances front (nextHeldLoop h (s.held.waiting.length+1) s behind).1
        (nextHeldLoop h (s.held.waiting.length+1) s behind).2.1 := by
    obtain ⟨s₁,hquiet,hheld,hturns⟩ :=
      nextHeldLoop_turns (h := h) behind s.held.waiting.length hnone hwaiting
    have hlater := (hturns.step (hheld ▸ hwaiting) fun _ => nextHeldLoop_step true _).next hfew
    have hfirst := hquiet.holds (lt_of_le_of_lt hlater hfew) hgood
    generalize nextHeldLoop h (s.held.waiting.length+1) s behind=r at hturns hfew
    cases hturns with
    | waits hsome | bound ms hsome => exact absurd hsome (by simp [hheld,hawaits])
    | @taken r rest awaitingWatch hr hrest =>
      have hleft := hrest ▸ (nextHeldLoop_step (h := h) (s := r.1) true s.held.waiting.length).next
      have hfront := hr ▸ (handleFront_spec (h := h)
        (s := {s₁ with held := {s₁.held with waiting, awaitingWatch}}) front).holds
      obtain ⟨handled,hhandled⟩ | ⟨hhandled,reading,hreading,hkey⟩ :=
        (hfront (lt_of_le_of_lt (hleft hfew) hfew)
          ⟨hfirst.good,(readingHeld_of_reads hfirst.reads).trans hnone⟩).2
      · exact .inl ⟨handled++rest.2.1.handled,congrArg (·++_) hhandled⟩
      -- the loop stops at once: the read is in flight
      rw [hwaiting,length_cons,nextHeldLoop,if_pos (by simp [hreading])] at hrest
      subst hrest
      exact .inr ⟨by simp [Log.forKey,hhandled],reading,hreading,hkey⟩
  simp only [nextHeld] at hfew ⊢
  split at hfew
  next hclear =>
    rw [if_pos hclear]
    obtain ⟨handled,hhandled⟩ | ⟨hhandled,hreading⟩ := hloop hfew
    · exact .inl ⟨handled,by simp [hhandled]⟩
    · exact .inr ⟨by simp [hhandled],hreading⟩
  next hkept =>
    rw [if_neg hkept]
    exact hloop hfew

end Verbatim.Core
