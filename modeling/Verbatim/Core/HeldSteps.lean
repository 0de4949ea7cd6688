import Verbatim.Core.Reduce
import Verbatim.Core.Table

namespace Verbatim.Core

open Queries List Nat Framework

variable {P : Parts}

def Effect.passed : Effect P → List TraceId
  | .passHeldKey trace => [trace]
  | .forKey _ effect => effect.passed
  | _ => []

def Effect.bounds : Effect P → Option (Option TraceId)
  | .boundHeldKey deadline => some (deadline.map (·.1))
  | .forKey _ effect => effect.bounds
  | _ => none

def passed (effects : List (Effect P)) : List TraceId := effects.flatMap Effect.passed

def Silent (effects : List (Effect P)) : Prop :=
  ∀ effect∈effects, effect.passed=[] ∧ effect.bounds=none

@[simp] theorem silent_nil : @Silent P [] := forall_mem_nil _

variable (deadline : Option TraceId)

def deadlineAfter (effects : List (Effect P)) : Option TraceId :=
  effects.foldl (fun deadline effect => effect.bounds.getD deadline) deadline

def reviewed (effects : List (Effect P)) : List QueryId :=
  effects.filterMap fun effect => effect.review.map (·.1)

variable (effects other : List (Effect P))

@[simp] theorem passed_append : passed (effects++other)=passed effects++passed other :=
  flatMap_append

@[simp] theorem deadlineAfter_append :
    deadlineAfter deadline (effects++other)=deadlineAfter (deadlineAfter deadline effects) other :=
  foldl_append

@[simp] theorem reviewed_append : reviewed (effects++other)=reviewed effects++reviewed other :=
  filterMap_append

variable (trace : TraceId)

@[simp] theorem passed_forKey (effects : List (Effect P)) :
    passed (effects.map (.forKey trace))=passed effects := by
  simp only [passed,flatMap_map]
  rfl

@[simp] theorem deadlineAfter_forKey (effects : List (Effect P)) :
    deadlineAfter deadline (effects.map (.forKey trace))=deadlineAfter deadline effects := by
  simp only [deadlineAfter,foldl_map]
  rfl

@[simp] theorem reviewed_forKey (effects : List (Effect P)) :
    reviewed (effects.map (.forKey trace))=reviewed effects := by
  simp only [reviewed,filterMap_map]
  rfl

@[simp] theorem Log.effects_append (log other : Log P) :
    (log++other).effects=log.effects++other.effects := rfl

@[simp] theorem Log.handled_append (log other : Log P) :
    (log++other).handled=log.handled++other.handled := rfl

theorem Log.append_empty (log : Log P) : log++({} : Log P)=log := by
  exact congrArg₂ Log.mk (append_nil _) (append_nil _)

def ReadBounded (s : SrState P) : Prop :=
  ∀ reading, s.readingHeld=some reading → s.held.bounded=some reading.2.key.trace

/-- What is done from `s` to `s'` leaves `exiting` as it is and, while numbers for queries are left,
takes none back and from `A` brings about `Q`. -/
structure Given (A : Prop) (s s' : SrState P) (Q : Prop) : Prop where
  exiting : s'.exiting=s.exiting
  next : s'.queries.next<u64Max → s.queries.next ≤ s'.queries.next
  holds : s'.queries.next<u64Max → A → Q

/-- What a part of a step does, with `before` the line it started with: the line goes on from what
was handled, each held key handled was passed on, and the deadline set last is the one kept. -/
structure Step (before : List (WaitingKey P)) (s s' : SrState P) (log : Log P) : Prop where
  good : s'.queries.Good
  next : s.queries.next ≤ s'.queries.next
  reads : ∀ id, id<s.queries.next → s.queries.Plain id → s'.queries.Plain id
  asked : ∀ id∈reviewed log.effects, id<s'.queries.next ∧ s'.queries.Plain id
  line : log.handled++s'.line=before
  passes : passed log.effects=log.handled.filterMap WaitingKey.heldTrace
  deadline : ∀ deadline, (∀ trace, s.held.bounded=some trace → deadline=some trace) →
    ∀ trace, s'.held.bounded=some trace → deadlineAfter deadline log.effects=some trace
  bounded : ReadBounded s → ReadBounded s'

variable {before : List (WaitingKey P)} {s s' s'' : SrState P} {log log' : Log P}
  {A A' Q Q' Q'' : Prop}

theorem Given.refl (hs : A → Q) : Given A s s Q := ⟨rfl,fun _ => le_refl _,fun _ => hs⟩

theorem Given.trans (h : Given A s s' Q) (h' : Given A' s' s'' Q') (hnext : A → Q → A')
    (hboth : A → Q → Q' → Q'') : Given A s s'' Q'' where
  exiting := h'.exiting.trans h.exiting
  next hfew := (h.next (lt_of_le_of_lt (h'.next hfew) hfew)).trans (h'.next hfew)
  holds hfew hs :=
    have hfirst := h.holds (lt_of_le_of_lt (h'.next hfew) hfew) hs
    hboth hs hfirst (h'.holds hfew (hnext hs hfirst))

theorem Given.imp (h : Given A s s' Q) (hnext : A' → A) (himp : A' → Q → Q') : Given A' s s' Q' :=
  ⟨h.exiting,h.next,fun hfew hs => himp hs (h.holds hfew (hnext hs))⟩

theorem Step.refl (h : s.queries.Good) : Step s.line s s {} :=
  ⟨h,le_refl _,fun _ _ h => h,by simp [reviewed],rfl,rfl,fun _ h => h,fun h => h⟩

theorem forall_reviewed_append {R : QueryId → Prop} (h : ∀ id∈reviewed log.effects, R id)
    (h' : ∀ id∈reviewed log'.effects, R id) : ∀ id∈reviewed (log++log').effects, R id := by
  rw [Log.effects_append,reviewed_append]
  exact forall_mem_append.2 ⟨h,h'⟩

theorem Step.chain {mid after : List (WaitingKey P)} (h : Step before s s' log)
    (h' : Step mid s' s'' log') (hline : log.handled++mid=after) :
    Step after s s'' (log++log') where
  good := h'.good
  next := le_trans h.next h'.next
  reads id hlt hplain := h'.reads id (lt_of_lt_of_le hlt h.next) (h.reads id hlt hplain)
  asked := by
    refine forall_reviewed_append (fun id hid => ?_) h'.asked
    obtain ⟨hlt,hplain⟩ := h.asked id hid
    exact ⟨lt_of_lt_of_le hlt h'.next,h'.reads id hlt hplain⟩
  line := by rw [Log.handled_append,append_assoc,h'.line,hline]
  passes := by simp [h.passes,h'.passes]
  deadline := by
    intro deadline hdeadline
    rw [Log.effects_append,deadlineAfter_append]
    exact h'.deadline _ (h.deadline deadline hdeadline)
  bounded hs := h'.bounded (h.bounded hs)

theorem Step.trans (h : Step before s s' log) (h' : Step s'.line s' s'' log') :
    Step before s s'' (log++log') := h.chain h' h.line

/-- The held keys as they were, up to which watch they wait for. -/
structure SameHeld (held held' : HeldKeys P) : Prop where
  waiting : held'.waiting=held.waiting
  passedAt : held'.passedAtMs=held.passedAtMs
  bounded : held'.bounded=held.bounded
  awaiting : held'.awaitingWatch.isSome=held.awaitingWatch.isSome

theorem SameHeld.refl (held : HeldKeys P) : SameHeld held held := ⟨rfl,rfl,rfl,rfl⟩

theorem SameHeld.trans {held held' held'' : HeldKeys P} (h : SameHeld held held')
    (h' : SameHeld held' held'') : SameHeld held held'' :=
  ⟨h'.waiting.trans h.waiting,h'.passedAt.trans h.passedAt,h'.bounded.trans h.bounded,
    h'.awaiting.trans h.awaiting⟩

/-- What a rule that is not about the held keys does to them: nothing. -/
structure Quiet (s s' : SrState P) (log : Log P) : Prop where
  held : SameHeld s.held s'.held
  reads : s'.queries.heldReads=s.queries.heldReads
  good : s'.queries.Good
  next : s.queries.next ≤ s'.queries.next
  handled : log.handled=[]
  silent : Silent log.effects
  asked : ∀ id∈reviewed log.effects, id<s'.queries.next ∧ s'.queries.Plain id

abbrev Quietly (s : SrState P) (r : Logged P) : Prop :=
  Given s.queries.Good s r.1 (Quiet s r.1 r.2)

theorem Quiet.refl (h : s.queries.Good) : Quiet s s {} :=
  ⟨.refl _,rfl,h,le_refl _,rfl,by simp,by simp [reviewed]⟩

theorem Quietly.refl : Quietly s (s,{}) := Given.refl Quiet.refl

theorem plain_of_reads {q q' : Queries (Then P)} (h : q'.heldReads=q.heldReads) {id : QueryId}
    (hplain : q.Plain id) : q'.Plain id := by
  intro reading
  rw [h]
  exact hplain reading

theorem Quiet.trans (h : Quiet s s' log) (h' : Quiet s' s'' log') : Quiet s s'' (log++log') where
  held := h.held.trans h'.held
  reads := h'.reads.trans h.reads
  good := h'.good
  next := le_trans h.next h'.next
  handled := by rw [Log.handled_append,h.handled,h'.handled]; rfl
  silent := forall_mem_append.2 ⟨h.silent,h'.silent⟩
  asked := by
    refine forall_reviewed_append (fun id hid => ?_) h'.asked
    obtain ⟨hlt,hplain⟩ := h.asked id hid
    exact ⟨lt_of_lt_of_le hlt h'.next,plain_of_reads h'.reads hplain⟩

theorem Quietly.trans (h : Quietly s (s',log)) (h' : Quietly s' (s'',log')) :
    Quietly s (s'',log++log') :=
  Given.trans h h' (fun _ hquiet => hquiet.good) fun _ => Quiet.trans

theorem Quietly.andThen {r : Logged P} {next : SrState P → Logged P}
    (h : Quietly s r) (h' : Quietly r.1 (next r.1)) : Quietly s (andThen r next) :=
  Quietly.trans h h'

theorem readingHeld_of_reads (h : s'.queries.heldReads=s.queries.heldReads) :
    s'.readingHeld=s.readingHeld := by
  rw [SrState.readingHeld,SrState.readingHeld,h]

theorem Quiet.line (h : Quiet s s' log) : s'.line=s.line := by
  rw [SrState.line,SrState.line,readingHeld_of_reads h.reads,h.held.waiting]

theorem passed_of_silent {effects : List (Effect P)}
    (h : Silent effects) : passed effects=[] :=
  flatMap_eq_nil_iff.mpr fun effect heffect => (h effect heffect).1

theorem deadlineAfter_of_silent {effects : List (Effect P)}
    (h : Silent effects)
    (deadline : Option TraceId) : deadlineAfter deadline effects=deadline := by
  induction effects with
  | nil => rfl
  | cons effect effects ih =>
    rw [deadlineAfter,foldl_cons,(h effect (by simp)).2]
    exact ih fun other hother => h other (mem_cons_of_mem _ hother)

theorem Quiet.step (h : Quiet s s' log) : Step s.line s s' log where
  good := h.good
  next := h.next
  reads _ _ hplain := plain_of_reads h.reads hplain
  asked := h.asked
  line := by rw [h.handled,h.line]; rfl
  passes := by rw [h.handled,passed_of_silent h.silent]; rfl
  deadline := by
    intro deadline hdeadline
    rw [deadlineAfter_of_silent h.silent,h.held.bounded]
    exact hdeadline
  bounded hs reading hreading := by
    rw [readingHeld_of_reads h.reads] at hreading
    rw [h.held.bounded]
    exact hs reading hreading

theorem Quiet.handles (hquiet : Quiet s s' log) (key : WaitingKey P) (effects : List (Effect P))
    (hpassed : passed effects=key.heldTrace.toList)
    (hbounds : ∀ deadline, deadlineAfter deadline effects=deadline)
    (hreviewed : reviewed effects=[]) : Step (key::s.line) s s' (log++⟨effects,[key]⟩) where
  good := hquiet.good
  next := hquiet.next
  reads := hquiet.step.reads
  asked := by
    intro id hid
    rw [Log.effects_append,reviewed_append,hreviewed,append_nil] at hid
    exact hquiet.asked id hid
  line := by
    rw [Log.handled_append,hquiet.handled,hquiet.line]
    rfl
  passes := by
    rw [Log.effects_append,passed_append,passed_of_silent hquiet.silent,hpassed,
      Log.handled_append,hquiet.handled]
    cases hkey : key.heldTrace <;> simp [hkey]
  deadline := by
    intro deadline hdeadline
    rw [Log.effects_append,deadlineAfter_append,hbounds]
    exact hquiet.step.deadline deadline hdeadline
  bounded := hquiet.step.bounded

theorem Step.forKey (hstep : Step before s s' log) (trace : TraceId) :
    Step before s s' (log.forKey trace) := by
  refine ⟨hstep.good,hstep.next,hstep.reads,?_,hstep.line,?_,?_,hstep.bounded⟩
  · rw [Log.forKey,reviewed_forKey]
    exact hstep.asked
  · rw [Log.forKey,passed_forKey]
    exact hstep.passes
  intro deadline hdeadline
  rw [Log.forKey,deadlineAfter_forKey]
  exact hstep.deadline deadline hdeadline

theorem quiet_of_queries {q : Queries (Then P)} (hgood : q.Good)
    (hreads : q.heldReads=s.queries.heldReads) (hnext : s.queries.next≤q.next) :
    Quiet s {s with queries := q} {} :=
  ⟨.refl _,hreads,hgood,hnext,rfl,by simp,by simp [reviewed]⟩

theorem quietly_of_queries {q : Queries (Then P)} (hnext : q.next=s.queries.next)
    (hq : s.queries.Good → q.Good ∧ q.heldReads=s.queries.heldReads) :
    Quietly s ({s with queries := q},{}) :=
  ⟨rfl,fun _ => hnext.ge,fun _ hs => quiet_of_queries (hq hs).1 (hq hs).2 hnext.ge⟩

theorem quiet_of_view (view : View P) : Quietly s ({s with view},{}) :=
  ⟨rfl,fun _ => le_refl _,fun _ hs => ⟨.refl _,rfl,hs,le_refl _,rfl,by simp,by simp [reviewed]⟩⟩

theorem emitting_quiet {effects : List (Effect P)}
    (hsilent : Silent effects)
    (hreviewed : reviewed effects=[]) : Quietly s (s,{effects}) :=
  Given.refl fun hs => ⟨.refl _,rfl,hs,le_refl _,rfl,hsilent,by simp [hreviewed]⟩

theorem runAct_quiet (act : Act P) : Quietly s (runAct s act) := by
  cases act with
  | change f => exact quiet_of_view (f s.view)
  | ask forKey node op continues =>
    refine ⟨rfl,fun hfew => le_of_lt (next_lt_ask hfew),fun hfew h => ?_⟩
    have hreads := h.reads_ask node op.asked continues
    have hgood := h.ask hfew (hreads ▸ h.single) (by simp)
    refine ⟨.refl _,hreads,hgood,le_of_lt (next_lt_ask hfew),rfl,?_,?_⟩
    · intro effect heffect
      rw [runAct,emitting,mem_singleton] at heffect
      subst heffect
      cases forKey <;> exact ⟨rfl,rfl⟩
    · intro id hid
      have hid : id=s.queries.next := by
        rw [runAct,emitting] at hid
        cases forKey <;> cases op <;> simp [reviewed,Effect.review] at hid <;> exact hid
      subst hid
      exact ⟨next_lt_ask hfew,plain_of_reads hreads (h.plain_next (le_refl _))⟩
  | askMemory node continues =>
    refine ⟨rfl,fun hfew => le_of_lt (next_lt_ask hfew),fun hfew h => ?_⟩
    have hreads := h.reads_ask node .memory continues
    exact quiet_of_queries (h.ask hfew (hreads ▸ h.single) (by simp)) hreads
      (le_of_lt (next_lt_ask hfew))
  | forget which => exact quietly_of_queries rfl fun h => ⟨h.forget which,heldReads_forget _ _⟩
  | findMut which f => exact quietly_of_queries (next_findMut _) fun h => findMut_spec h which f
  | forgetMemory ids =>
    exact quietly_of_queries rfl fun h => ⟨h.forgetMemory ids,heldReads_forgetMemory h ids⟩
  | emit effect => exact emitting_quiet (by simp [Silent,Effect.passed,Effect.bounds]) rfl

theorem runActs_quiet (acts : List (Act P)) : Quietly s (runActs s acts) := by
  induction acts generalizing s with
  | nil => exact .refl
  | cons act acts ih => exact Quietly.andThen (runAct_quiet act) ih

theorem laterKey_quiet (atMs : Nat) : Quietly s (laterKey s atMs,{}) :=
  quietly_of_queries (next_findMut _) fun h =>
    findMut_spec h Later.isCaret (Later.withLaterKey atMs)

theorem supersedeCaret_quiet (node : NodeId) : Quietly s ((supersedeCaret s node).1,{}) := by
  unfold supersedeCaret
  split
  next id old hfind =>
    have hfirst (h : s.queries.Good) : s.queries.Plain id ∧
        (s.queries.replace id (.later .nothing)).heldReads=s.queries.heldReads := by
      obtain ⟨query,hmem,hlater,-⟩ := find_mem hfind
      have hplain := h.plain_of_later hmem hlater
      exact ⟨hplain,heldReads_replace hplain .nothing⟩
    split
    · exact quietly_of_queries rfl fun h => ⟨h.replace (hfirst h).1 _,(hfirst h).2⟩
    refine quietly_of_queries rfl fun h => ?_
    obtain ⟨hplain,hreads⟩ := hfirst h
    have hreads' := (heldReads_forget (s.queries.replace id _) Later.isSuperseded).trans hreads
    have hplain' := plain_of_reads hreads' hplain
    exact ⟨((h.replace hplain _).forget _).replace hplain' _,
      (heldReads_replace hplain' _).trans hreads'⟩
  · exact .refl

section Handled

variable {h : Handlers P}

theorem askWatch_quiet (node : NodeId) (watch : P.Watch) (continues : Later P) :
    Quietly s (askWatch s node watch continues) := by
  have hask := runAct_quiet (s := s) (.ask none node (.awaitCaret watch) continues)
  refine ⟨rfl,hask.next,fun hfew hs => ?_⟩
  have hquiet := hask.holds hfew hs
  exact ⟨⟨rfl,rfl,rfl,by simp [askWatch,emitting]⟩,hquiet.reads,hquiet.good,hquiet.next,rfl,
    hquiet.silent,hquiet.asked⟩

theorem caretKey_quiet (key : P.Key) (pressedAtMs : Nat) :
    Quietly s (caretKey h s key pressedAtMs) := by
  refine Quietly.andThen (runActs_quiet _) ?_
  generalize (runActs s (h.beforeCaretKey s key pressedAtMs)).1=s₁
  split
  · exact .refl
  next node _ =>
    exact ((quiet_of_view (h.followCaret node s₁.view)).trans (supersedeCaret_quiet node)).trans
      (askWatch_quiet node _ _)

theorem keyInput_quiet (input : KeyInput P) : Quietly s (keyInput h s input) := by
  refine Quietly.andThen (runActs_quiet _) ?_
  cases input with
  | caretKey trace key pressedAtMs => exact caretKey_quiet key pressedAtMs
  | characterTyped trace text atMs | clearingKey trace atMs => exact .refl

theorem watchHeld_quiet (key : HeldKey P) (atMs : Nat) : Quietly s (watchHeld h s key atMs) :=
  Quietly.andThen (runActs_quiet _) (caretKey_quiet key.key atMs)

theorem passHeld_step (key : HeldKey P) (atMs : Nat) :
    let r := passHeld h s key atMs
    Given s.queries.Good s r.1 (Step (.held key::s.line) s r.1 r.2) := by
  have hquiet := watchHeld_quiet (h := h)
    (s := {s with held := {s.held with passedAtMs := atMs}}) key atMs
  refine ⟨hquiet.exiting,hquiet.next,fun hfew hs => ?_⟩
  have hstep := (hquiet.holds hfew hs).handles (.held key) [.passHeldKey key.trace] rfl
    (fun _ => rfl) rfl
  exact ⟨hstep.good,hstep.next,hstep.reads,hstep.asked,hstep.line,hstep.passes,hstep.deadline,
    hstep.bounded⟩

theorem startHeld_step (key : HeldKey P) :
    let r := startHeld h s key
    Given (s.queries.Good ∧ s.readingHeld=none) s r.1 (Step (.held key::s.line) s r.1 r.2) := by
  unfold startHeld
  split
  · exact (passHeld_step key key.pressedAtMs).imp And.left fun _ hstep => hstep
  next node _ =>
    refine ⟨rfl,fun hfew => le_of_lt (next_lt_ask hfew),fun hfew ⟨hgood,hnone⟩ => ?_⟩
    have hempty : s.queries.heldReads=[] := head?_eq_none_iff.mp hnone
    have hreads := reads_ask_heldRead (q := s.queries) node .read ⟨node,key⟩
    rw [heldReads_remove,hempty,filter_nil,nil_append] at hreads
    have hreading : SrState.readingHeld {s with
        queries := s.queries.ask node .read (.heldRead ⟨node,key⟩)
        held := {s.held with bounded := some key.trace}} =
        some (s.queries.next,⟨node,key⟩) := by
      rw [SrState.readingHeld,hreads]
      rfl
    refine ⟨hgood.ask hfew (hreads ▸ le_refl 1) (by simp),le_of_lt (next_lt_ask hfew),?_,
      by simp [emitting,reviewed,Effect.review],?_,rfl,?_,?_⟩
    · intro id hlt hplain reading hmem
      rw [emitting,hreads,mem_singleton] at hmem
      exact absurd (Prod.mk.inj hmem).1 (Nat.ne_of_lt hlt)
    · simp only [emitting,SrState.line]
      rw [hreading,hnone]
      rfl
    · intro deadline _ trace htrace
      exact htrace
    · intro _ reading hread
      simp only [emitting] at hread
      rw [hreading] at hread
      cases hread
      rfl

theorem handleFront_step (front : WaitingKey P) :
    let r := handleFront h s front
    Given (s.queries.Good ∧ s.readingHeld=none) s r.1 (Step (front::s.line) s r.1 r.2) := by
  cases front with
  | held key => exact startHeld_step key
  | later input =>
    exact (keyInput_quiet _).imp And.left fun _ hquiet => hquiet.handles _ _ rfl (fun _ => rfl) rfl
  | command input =>
    exact (runActs_quiet _).imp And.left fun _ hquiet => hquiet.handles _ _ rfl (fun _ => rfl) rfl

end Handled

end Verbatim.Core
