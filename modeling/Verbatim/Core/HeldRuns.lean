import Verbatim.Core.HeldInputs
import Mathlib.Data.List.Induction

namespace Verbatim.Core

open Queries List WaitingKey Option Nat Framework

variable {P : Parts} {h : Handlers P} {s s' s'' : SrState P} {log : Log P}

/-- What is done to the effects of a step after it: requests taken out, stamps and traces set. None
of it is about the held keys. -/
structure Settles (s s' : SrState P) (effects effects' : List (Effect P)) : Prop where
  state : Quiet s s' {}
  passed : passed effects'=passed effects
  deadline : ∀ deadline, deadlineAfter deadline effects'=deadlineAfter deadline effects

theorem Quiet.silently (hquiet : Quiet s s' log) : Quiet s s' {} :=
  ⟨hquiet.held,hquiet.reads,hquiet.good,hquiet.next,rfl,by simp,by simp [reviewed]⟩

theorem Settles.append {effects effects' others others' : List (Effect P)}
    (hfirst : Settles s s' effects effects') (hrest : Settles s' s'' others others') :
    Settles s s'' (effects++others) (effects'++others') where
  state := hfirst.state.trans hrest.state
  passed := by rw [passed_append,passed_append,hfirst.passed,hrest.passed]
  deadline deadline := by
    rw [deadlineAfter_append,deadlineAfter_append,hfirst.deadline,hrest.deadline]

theorem settles_silent {effects effects' : List (Effect P)} (hquiet : Quiet s s' {})
    (heffects : Silent effects)
    (heffects' : Silent effects') :
    Settles s s' effects effects' where
  state := hquiet
  passed := by rw [passed_of_silent heffects,passed_of_silent heffects']
  deadline deadline := by rw [deadlineAfter_of_silent heffects,deadlineAfter_of_silent heffects']

theorem silent_of_review (effect : Effect P) (hreview : effect.review.isSome) :
    effect.passed=[] ∧ effect.bounds=none := by
  induction effect with
  | forKey trace effect ih => exact ih hreview
  | request id node op => exact ⟨rfl,rfl⟩
  | withdraw outpost id | boundHeldKey deadline | passHeldKey trace | other effect => cases hreview

theorem silent_forKey (key : Option TraceId)
    (hlog : Silent log.effects) :
    Silent (key.elim log log.forKey).effects := by
  cases key with
  | none => exact hlog
  | some trace =>
    intro effect heffect
    obtain ⟨inner,hinner,rfl⟩ := mem_map.mp heffect
    exact hlog inner hinner

theorem interceptOne_settles (trace : Option TraceId) (effect : Effect P) :
    let r := match effect.review.filter (fun (_,node,op) => h.answers s.view node op) with
      | none => emitting s [effect]
      | some (id,node,op) =>
          let trace := effect.key.or trace
          let s := {s with queries := s.queries.answerFromMemoryLater id trace}
          let (s,log) := runActs s (h.queue s node trace id op)
          (s,effect.key.elim log log.forKey)
    Given (s.queries.Good ∧ ∀ id∈reviewed [effect], s.queries.Plain id) s r.1
      (Settles s r.1 [effect] r.2.effects) := by
  split
  · exact .refl fun hs => ⟨.refl hs.1,rfl,fun _ => rfl⟩
  next id node op hreview =>
    obtain ⟨hreview,-⟩ := filter_eq_some_iff.mp hreview
    have hacts := runActs_quiet (s := {s with
      queries := s.queries.answerFromMemoryLater id (effect.key.or trace)}) (h.queue
      {s with queries := s.queries.answerFromMemoryLater id (effect.key.or trace)} node
      (effect.key.or trace) id op)
    refine ⟨hacts.exiting,hacts.next,fun hfew ⟨hgood,hasked⟩ => ?_⟩
    have hplain : s.queries.Plain id := hasked id (by simp [reviewed,hreview])
    have hqueries := quiet_of_queries (hgood.answerFromMemoryLater hplain (effect.key.or trace))
      (heldReads_alter_same fun _ => rfl) (le_refl _)
    have hqueue := hacts.holds hfew hqueries.good
    refine settles_silent (hqueries.trans hqueue.silently) ?_ ?_
    · simpa [Silent] using silent_of_review effect (by simp [hreview])
    · exact silent_forKey effect.key hqueue.silent

theorem intercept_settles (trace : Option TraceId) (effects : List (Effect P)) :
    let r := intercept h trace effects s
    Given (s.queries.Good ∧ ∀ id∈reviewed effects, s.queries.Plain id) s r.1
      (Settles s r.1 effects r.2.effects) := by
  induction effects generalizing s with
  | nil => exact .refl fun hs => ⟨.refl hs.1,rfl,fun _ => rfl⟩
  | cons effect effects ih =>
    have hsplit : reviewed (effect::effects)=reviewed [effect]++reviewed effects :=
      reviewed_append [effect] effects
    have hfirst (hs : s.queries.Good ∧ ∀ id∈reviewed (effect::effects), s.queries.Plain id) :
        s.queries.Good ∧ ∀ id∈reviewed [effect], s.queries.Plain id :=
      ⟨hs.1,fun id hid => hs.2 id (hsplit ▸ mem_append_left _ hid)⟩
    exact ((interceptOne_settles trace effect).imp hfirst fun _ hone => hone).trans ih
      (fun hs hone => ⟨hone.state.good,fun id hid =>
        plain_of_reads hone.state.reads (hs.2 id (hsplit ▸ mem_append_right _ hid))⟩)
      fun _ => Settles.append

theorem setTrace_quiet (first : QueryId) (effect : Effect P) (trace : Option TraceId) :
    Quietly s ({s with queries := effect.setTrace first trace s.queries},{}) := by
  induction effect generalizing trace with
  | forKey key effect ih => exact ih (some key)
  | request id node op =>
    rw [Effect.setTrace]
    split
    · have hreads : (s.queries.alter id fun query => {query with trace := trace}).heldReads =
          s.queries.heldReads := heldReads_alter_same fun _ => rfl
      exact quietly_of_queries rfl fun hs =>
        ⟨hs.alter hreads fun _ _ hcont => ⟨hcont,.inl rfl⟩,hreads⟩
    · exact .refl
  | withdraw outpost id | boundHeldKey deadline | passHeldKey trace | other effect => exact .refl

theorem setTraces_quiet (first : QueryId) (effects : List (Effect P)) (trace : Option TraceId) :
    Quietly s ({s with queries := setTraces first effects trace s.queries},{}) := by
  induction effects generalizing s with
  | nil => exact .refl
  | cons effect effects ih => exact (setTrace_quiet first effect trace).trans ih

variable (stamp : Option TraceId → P.Effect → P.Effect) (trace : Option TraceId)

theorem stamp_same (effect : Effect P) : (effect.stamp stamp trace).passed=effect.passed ∧
    (effect.stamp stamp trace).bounds=effect.bounds := by
  induction effect generalizing trace with
  | forKey key effect ih => exact ih (some key)
  | _ => exact ⟨rfl,rfl⟩

theorem stamp_settles (effects : List (Effect P)) (hgood : s.queries.Good) :
    Settles s s effects (effects.map (Effect.stamp stamp trace)) where
  state := .refl hgood
  passed := by simp only [passed,flatMap_map,stamp_same]
  deadline deadline := by simp only [deadlineAfter,foldl_map,stamp_same]

/-- What a step of `reduce` does with the line and its deadline. -/
structure Reduces (arrivals : List (WaitingKey P)) (s s' : SrState P) (log : Log P) : Prop where
  good : s'.queries.Good
  armed : Armed s'
  line : log.handled++s'.line=s.line++arrivals
  passes : passed log.effects=log.handled.filterMap heldTrace
  deadline : ∀ deadline, (∀ trace, s.held.bounded=some trace → deadline=some trace) →
    ∀ trace, s'.held.bounded=some trace → deadlineAfter deadline log.effects=some trace

theorem Settles.trans {effects effects' effects'' : List (Effect P)}
    (hfirst : Settles s s' effects effects') (hnext : Settles s' s'' effects' effects'') :
    Settles s s'' effects effects'' where
  state := hfirst.state.trans hnext.state
  passed := hnext.passed.trans hfirst.passed
  deadline deadline := (hnext.deadline deadline).trans (hfirst.deadline deadline)

theorem Keeps.reduces {arrivals : List (WaitingKey P)} {effects : List (Effect P)}
    (hkeeps : Keeps (s.line++arrivals) s s' log) (harmed : Armed s)
    (hsettles : Settles s' s'' log.effects effects) :
    Reduces arrivals s s'' ⟨effects,log.handled⟩ where
  good := hsettles.state.good
  armed := hsettles.state.keeps.armed (hkeeps.armed harmed)
  line := by rw [hsettles.state.line,hkeeps.line]
  passes := hsettles.passed.trans hkeeps.passes
  deadline := by
    intro deadline hdeadline trace htrace
    rw [hsettles.deadline]
    exact hkeeps.deadline deadline hdeadline trace (hsettles.state.held.bounded ▸ htrace)

def settled (h : Handlers P) (before : SrState P) (input : Input P) (r : Logged P) :
    SrState P × List (Effect P) :=
  let (s,sent) := intercept h (input.requestTrace h) r.2.effects
    {r.1 with view := h.settle before.view input r.1.view}
  let (s,cut) := runActs s (h.cut s sent.effects)
  let effects := sent.effects++cut.effects
  let s := {s with queries := setTraces before.queries.next effects (input.trace h) s.queries}
  (s,effects.map (Effect.stamp (h.stamp s.view input) (input.trace h)))

theorem reduce_eq (hs : s.exiting=false) (input : Input P) :
    let r := reduceInput h {s with view := h.record input s.view} input
    reduce h s input=((settled h s input r).1,⟨(settled h s input r).2,r.2.handled⟩) := by
  simp only [reduce,hs,settled]
  rfl

theorem Quiet.settles (hquiet : Quiet s s' {}) (effects : List (Effect P)) :
    Settles s s' effects effects :=
  ⟨hquiet,rfl,fun _ => rfl⟩

theorem Quiet.settles_append (hquiet : Quiet s s' log) (effects : List (Effect P)) :
    Settles s s' effects (effects++log.effects) where
  state := hquiet.silently
  passed := by rw [passed_append,passed_of_silent hquiet.silent,append_nil]
  deadline _ := by rw [deadlineAfter_append,deadlineAfter_of_silent hquiet.silent]

theorem settled_settles (before : SrState P) (input : Input P) (r : Logged P) :
    Given (r.1.queries.Good ∧ ∀ id∈reviewed r.2.effects, r.1.queries.Plain id) r.1
      (settled h before input r).1
      (Settles r.1 (settled h before input r).1 r.2.effects (settled h before input r).2) := by
  have hview := quiet_of_view (s := r.1) (h.settle before.view input r.1.view)
  have hsent := (hview.imp And.left fun hs hquiet =>
    And.intro hs.2 (hquiet.settles r.2.effects)).trans
    (intercept_settles (h := h) (input.requestTrace h) r.2.effects)
    (fun _ hquiet => ⟨hquiet.2.state.good,hquiet.1⟩) fun _ hquiet => hquiet.2.trans
  simp only [settled]
  generalize intercept h (input.requestTrace h) r.2.effects
    {r.1 with view := h.settle before.view input r.1.view}=sent at hsent ⊢
  have hcut := hsent.trans (runActs_quiet (h.cut sent.1 sent.2.effects))
    (fun _ hsettles => hsettles.state.good)
    fun _ hsettles hquiet => hsettles.trans (hquiet.settles_append sent.2.effects)
  generalize runActs sent.1 (h.cut sent.1 sent.2.effects)=cut at hcut ⊢
  exact hcut.trans (setTraces_quiet before.queries.next (sent.2.effects++cut.2.effects)
    (input.trace h)) (fun _ hsettles => hsettles.state.good) fun _ hsettles hquiet =>
      (hsettles.trans (hquiet.settles _)).trans (stamp_settles _ _ _ hquiet.good)

theorem reduce_reduces (hs : s.exiting=false) (input : Input P)
    (hinput : ∀ exit, input≠.exiting exit) :
    let r := reduce h s input
    Given (s.queries.Good ∧ Armed s) s r.1 (Reduces input.arrivals s r.1 r.2) := by
  have hview := (quiet_of_view (s := s) (h.record input s.view)).imp And.left
    fun (hs : s.queries.Good ∧ Armed s) hquiet => And.intro hquiet (hquiet.keeps.armed hs.2)
  have hkeeps := hview.trans (reduceInput_keeps (h := h) input hinput)
    (fun _ hview => ⟨hview.1.good,hview.2⟩) fun _ => And.intro
  have hreduces := hkeeps.trans (settled_settles (h := h) s input _)
    (fun _ hkeeps => ⟨hkeeps.2.good,fun id hid => (hkeeps.2.asked id hid).2⟩)
    fun _ hkeeps => hkeeps.2.reduces hkeeps.1.2
  rw [reduce_eq hs]
  refine ⟨hreduces.exiting,hreduces.next,fun hfew hs => ?_⟩
  have hall := hreduces.holds hfew hs
  exact ⟨hall.good,hall.armed,hall.line,hall.passes,hall.deadline⟩

theorem reduce_exiting (input : Input P) (hexit : s.exiting=true ∨ ∃ exit, input=.exiting exit) :
    (reduce h s input).1.exiting=true := by
  by_cases hs : s.exiting=true
  · rw [reduce,if_pos hs]
    exact hs
  obtain ⟨exit,rfl⟩ := hexit.resolve_left hs
  rw [reduce_eq (Bool.not_eq_true _ ▸ hs)]
  exact (settled_settles (h := h) s (.exiting exit) _).exiting.trans (runActs_quiet _).exiting

theorem reduce_due_advances (hs : s.exiting=false) (hgood : s.queries.Good) (harmed : Armed s)
    {front : WaitingKey P} {rest : List (WaitingKey P)} (hline : s.line=front::rest)
    (hfew : (reduce h s (.heldKeyDue front.trace)).1.queries.next<u64Max) :
    let due := reduce h s (.heldKeyDue front.trace)
    Advances front due.1 due.2 ∧ (s.readingHeld.isSome → due.2.handled≠[]) := by
  rw [reduce_eq hs] at hfew ⊢
  have hsettles := settled_settles (h := h) s (.heldKeyDue front.trace)
    (heldKeyDue h {s with view := h.record (.heldKeyDue front.trace) s.view} front.trace)
  have hfew' := lt_of_le_of_lt (hsettles.next hfew) hfew
  have hview := (quiet_of_view (h.record (.heldKeyDue front.trace) s.view)).holds
    (lt_of_le_of_lt ((heldKeyDue_keeps front.trace).next hfew') hfew') hgood
  have harmed' := hview.keeps.armed harmed
  have hkeeps := (heldKeyDue_keeps (h := h) front.trace).holds hfew' ⟨hview.good,harmed'⟩
  have hstate := (hsettles.holds hfew ⟨hkeeps.good,fun id hid => (hkeeps.asked id hid).2⟩).state
  obtain ⟨hadvances,hhandled⟩ :=
    heldKeyDue_advances hview.good harmed' (hview.line.trans hline) hfew'
  refine ⟨?_,hhandled⟩
  obtain hfirst | ⟨hnone,reading,hreading,hfront⟩ := hadvances
  · exact .inl hfirst
  · exact .inr ⟨hnone,reading,(readingHeld_of_reads hstate.reads).trans hreading,hfront⟩

/-- A run of Core: its state, all its effects, and the keys and commands it handled, in order. -/
structure Run (P : Parts) where
  state : SrState P
  effects : List (Effect P) := []
  handled : List (WaitingKey P) := []

namespace Run

variable (h : Handlers P) (run : Run P)

def enter (input : Input P) : Run P :=
  let (s,log) := reduce h run.state input
  ⟨s,run.effects++log.effects,run.handled++log.handled⟩

def after (view : View P) (inputs : List (Input P)) : Run P :=
  inputs.foldl (enter h) {state := {view}}

def deadline : Option TraceId := deadlineAfter none run.effects

def answerDeadline : Run P :=
  match run.deadline with
  | some trace => run.enter h (.heldKeyDue trace)
  | none => run

end Run

/-- What holds of a run before exiting that received the keys and commands `received`. -/
structure Kept (run : Run P) (received : List (WaitingKey P)) : Prop where
  good : run.state.queries.Good
  armed : Armed run.state
  line : run.handled++run.state.line=received
  passes : passed run.effects=run.handled.filterMap heldTrace
  deadline : ∀ trace, run.state.held.bounded=some trace → run.deadline=some trace

theorem kept_start (view : View P) : Kept {state := {view}} [] where
  good := good_empty
  armed := ⟨(fun _ hread => nomatch hread),fun _ => .inl rfl⟩
  line := rfl
  passes := rfl
  deadline _ htrace := by cases htrace

variable {received : List (WaitingKey P)} {run : Run P} (hrun : run.state.exiting=false)

include hrun

theorem kept_enter (input : Input P) (hinput : ∀ exit, input≠.exiting exit) :
    Given (Kept run received) run.state (run.enter h input).state
      (Kept (run.enter h input) (received++input.arrivals)) := by
  have hreduces := reduce_reduces (h := h) hrun input hinput
  refine ⟨hreduces.exiting,hreduces.next,fun hfew hkept => ?_⟩
  have hall := hreduces.holds hfew ⟨hkept.good,hkept.armed⟩
  refine ⟨hall.good,hall.armed,?_,?_,fun trace htrace => ?_⟩
  · simp only [Run.enter]
    rw [append_assoc,hall.line,← append_assoc,hkept.line]
  · simp only [Run.enter]
    rw [passed_append,hkept.passes,hall.passes,filterMap_append]
  · simp only [Run.enter,Run.deadline]
    rw [deadlineAfter_append]
    exact hall.deadline _ hkept.deadline trace htrace

omit hrun in
theorem kept_after (h : Handlers P) (view : View P) (inputs : List (Input P)) :
    (Run.after h view inputs).state.exiting=true ∨
      Given True {view} (Run.after h view inputs).state
        (Kept (Run.after h view inputs) (inputs.flatMap Input.arrivals)) := by
  induction inputs using List.reverseRecOn with
  | nil => exact .inr (.refl fun _ => kept_start view)
  | append_singleton inputs input ih =>
    have hafter : Run.after h view (inputs++[input])=(Run.after h view inputs).enter h input :=
      foldl_concat ..
    rw [hafter,flatMap_append,flatMap_singleton]
    obtain hexiting | hkept := ih
    · exact .inl (reduce_exiting input (.inl hexiting))
    · by_cases hinput : ∃ exit, input=.exiting exit
      · exact .inl (reduce_exiting input (.inr hinput))
      · exact .inr (hkept.trans (kept_enter hkept.exiting input fun exit heq => hinput ⟨exit,heq⟩)
          (fun _ hkept => hkept) fun _ _ hkept => hkept)

/-- What is left to do: two deadlines a key waiting, one the key read. -/
def rank (s : SrState P) : Nat := 2*s.line.length-s.readingHeld.toList.length

omit hrun in
theorem rank_lt {t : SrState P} (hline : s.line≠[]) (hless : t.line.length<s.line.length) :
    rank t<rank s := by
  have hone : s.readingHeld.toList.length≤1 := by
    cases s.readingHeld <;> simp
  have hpos : 0<s.line.length := length_pos_of_ne_nil hline
  unfold rank
  omega

theorem Kept.answerDeadline (hkept : Kept run received) (hline : run.state.line≠[])
    (hfew : (run.answerDeadline h).state.queries.next<u64Max) :
    (run.answerDeadline h).state.exiting=false ∧ Kept (run.answerDeadline h) received ∧
      rank (run.answerDeadline h).state<rank run.state := by
  obtain ⟨front,rest,hcons⟩ := exists_cons_of_ne_nil hline
  have hdeadline := hkept.deadline _ (hkept.armed.bounded_eq hcons)
  have hanswer : run.answerDeadline h=run.enter h (.heldKeyDue front.trace) := by
    rw [Run.answerDeadline,hdeadline]
  rw [hanswer] at hfew ⊢
  have harrivals : (Input.heldKeyDue front.trace : Input P).arrivals=[] := rfl
  have henter := @kept_enter P h received run hrun (.heldKeyDue front.trace) fun _ => by simp
  have hkept' := henter.holds hfew hkept
  rw [harrivals,append_nil] at hkept'
  refine ⟨henter.exiting.trans hrun,hkept',?_⟩
  have hreduces := (reduce_reduces (h := h) hrun (.heldKeyDue front.trace) fun _ => by simp).holds
    hfew ⟨hkept.good,hkept.armed⟩
  obtain ⟨hadvances,hread⟩ := reduce_due_advances hrun hkept.good hkept.armed hcons hfew
  have hmoves := congrArg List.length hreduces.line
  simp only [Run.enter]
  rw [harrivals,append_nil,length_append] at hmoves
  obtain ⟨handled,hhandled⟩ | ⟨hnone,reading,hreading,-⟩ := hadvances
  · rw [hhandled,length_cons] at hmoves
    exact rank_lt hline (by omega)
  -- the read of the front has begun: it was none before
  have hbefore : run.state.readingHeld=none := by
    rw [← not_isSome_iff_eq_none]
    exact fun hsome => hread hsome hnone
  have hpos : 0<run.state.line.length := length_pos_of_ne_nil hline
  simp only [rank]
  rw [hreading,hbefore,toList_some,toList_none,length_singleton,length_nil]
  omega

theorem Kept.drains (hkept : Kept run received) {most : Nat} (hmost : rank run.state ≤ most)
    (hfew : ∀ n ≤ most, ((Run.answerDeadline h)^[n] run).state.queries.next<u64Max) :
    ∃ n ≤ most, ((Run.answerDeadline h)^[n] run).state.line=[] := by
  induction most generalizing run with
  | zero =>
    refine ⟨0,le_refl _,?_⟩
    change run.state.line=[]
    by_contra hline
    have hless := rank_lt (t := {run.state with queries := {}, held := {}}) hline
      (length_pos_of_ne_nil hline)
    omega
  | succ most ih =>
    by_cases hline : run.state.line=[]
    · exact ⟨0,Nat.zero_le _,hline⟩
    obtain ⟨hrun',hkept',hless⟩ := hkept.answerDeadline (h := h) hrun hline
      (hfew 1 (succ_le_succ (Nat.zero_le _)))
    obtain ⟨n,hn,hempty⟩ := ih hrun' hkept' (by omega) fun n hn => hfew (n+1) (succ_le_succ hn)
    exact ⟨n+1,succ_le_succ hn,hempty⟩

omit hrun

/-- No held key is lost, repeated or overtaken, and the line never stalls, while numbers for queries
are left. In every run before exiting: what was handled, then the key read and those waiting, are
the keys and commands received, in order; each held key was passed on as it was handled, and no
other; the deadline last set names the head of the line, and entering it goes on with that key or
command; and answering deadlines alone empties the line. -/
theorem held_keys_pass_in_order (h : Handlers P) (view : View P) (inputs : List (Input P))
    (hrun : (Run.after h view inputs).state.exiting=false)
    (hfew : (Run.after h view inputs).state.queries.next<u64Max) :
    let run := Run.after h view inputs
    let received := inputs.flatMap Input.arrivals
    run.handled++run.state.line=received ∧
    passed run.effects=run.handled.filterMap heldTrace ∧
    passed run.effects++run.state.line.filterMap heldTrace=received.filterMap heldTrace ∧
    ((received.filterMap heldTrace).Nodup → (passed run.effects).Nodup) ∧
    (∀ front rest, run.state.line=front::rest → run.deadline=some front.trace ∧
      let due := reduce h run.state (.heldKeyDue front.trace)
      due.1.queries.next<u64Max →
        Advances front due.1 due.2 ∧ passed due.2.effects=due.2.handled.filterMap heldTrace) ∧
    ((∀ n≤2*run.state.line.length, ((Run.answerDeadline h)^[n] run).state.queries.next<u64Max) →
      ∃ n≤2*run.state.line.length, ((Run.answerDeadline h)^[n] run).state.line=[]) := by
  intro run received
  have hkept : Kept run received := by
    obtain hexiting | hkept := kept_after h view inputs
    · rw [hrun] at hexiting
      cases hexiting
    · exact hkept.holds hfew True.intro
  have hall : passed run.effects++run.state.line.filterMap heldTrace =
      received.filterMap heldTrace := by
    rw [hkept.passes,← filterMap_append,hkept.line]
  refine ⟨hkept.line,hkept.passes,hall,fun hnodup => ?_,
    fun front rest hline => ⟨?_,fun hdue => ⟨?_,?_⟩⟩,hkept.drains hrun (sub_le _ _)⟩
  · rw [← hall] at hnodup
    exact (nodup_append.mp hnodup).1
  · exact hkept.deadline _ (hkept.armed.bounded_eq hline)
  · exact (reduce_due_advances hrun hkept.good hkept.armed hline hdue).1
  · exact ((reduce_reduces hrun _ fun _ => by simp).holds hdue ⟨hkept.good,hkept.armed⟩).passes

def bareParts : Parts where
  State := Unit
  Key := Unit
  Typed := Unit
  Command := Unit
  Input := Unit
  Watch := Unit
  Pending := Unit
  Segment := Unit
  Ask := Unit
  Continuation := Unit
  Review := Unit
  Op := Unit
  Caret := Unit
  Snapshot := Unit
  Reply := Unit
  Outcome := Unit
  Effect := Unit

/-- Rules that do nothing but watch the caret. -/
def bareHandlers : Handlers bareParts where
  event _ _ := []
  exiting _ _ := []
  outpostEnded _ _ := []
  command _ _ := []
  key _ _ := []
  terminalKey _ _ _ _ := []
  beforeCaretKey _ _ _ := []
  caretWatch _ _ _ := ((),())
  followCaret _ view := view
  updateCaret _ _ _ view := view
  beforeKey _ _ _ _ := []
  snapshotCaret _ := none
  continued _ _ _ _ := []
  terminalModel _ _ _ _ := []
  record _ view := view
  settle _ _ view := view
  answers _ _ _ := false
  queue _ _ _ _ _ := []
  cut _ _ := []
  stamp _ _ _ effect := effect
  traceOf _ := none
  askedUnder _ := none

def editView : View bareParts := ⟨some ⟨⟨0,0⟩,true,.editableText⟩,none,()⟩

/-- Two arrow keys held and a command pressed, then the caret before the first read. -/
def twoHeldKeys : List (Input bareParts) :=
  [.heldKey ⟨1,(),10⟩,.heldKey ⟨2,(),20⟩,.command ⟨3,30,false,()⟩,
    .answered 1 0 0 (.text (.caret 15 ()))]

theorem twoHeldKeys_pass_in_order :
    let run := Run.after bareHandlers editView twoHeldKeys
    run.state.exiting=false ∧ passed run.effects=[1] ∧ run.deadline=some 2 ∧
      ∃ n≤2*run.state.line.length,((Run.answerDeadline bareHandlers)^[n] run).state.line=[] := by
  have hrun : (Run.after bareHandlers editView twoHeldKeys).state.exiting=false := by
    decide +kernel
  have hall := held_keys_pass_in_order bareHandlers editView twoHeldKeys hrun (by decide +kernel)
  exact ⟨hrun,by decide +kernel,by decide +kernel,hall.2.2.2.2.2 (by decide +kernel)⟩

/-- Rules that use up the numbers for queries at the first event, and ask one more at the others. -/
def askingHandlers : Handlers bareParts :=
  {bareHandlers with
    event := fun s _ =>
      replicate (if s.queries.next=0 then u64Max else 1) (.askMemory ⟨0,0⟩ .nothing)}

theorem runActs_asking (n : Nat) (s : SrState bareParts) :
    ∃ q, runActs s (replicate n (.askMemory ⟨0,0⟩ .nothing))=({s with queries := q},{}) ∧
      (s.queries.next≤u64Max → q.next=min (s.queries.next+n) u64Max) ∧
      (s.queries.heldReads=[] → q.heldReads=[]) := by
  induction n generalizing s with
  | zero => exact ⟨s.queries,rfl,fun hs => (Nat.min_eq_left hs).symm,fun hs => hs⟩
  | succ n ih =>
    obtain ⟨q,hruns,hnext,hreads⟩ :=
      ih {s with queries := s.queries.ask ⟨0,0⟩ .memory (.later .nothing)}
    have hone : (s.queries.ask ⟨0,0⟩ .memory (.later (.nothing : Later bareParts))).next =
        min (s.queries.next+1) u64Max := by
      rw [← satAdd]
      rfl
    refine ⟨q,?_,fun hs => ?_,fun hs => hreads ?_⟩
    · rw [replicate_succ,runActs,runAct,andThen,emitting]
      simp only [hruns]
      rfl
    · rw [hnext (hone ▸ min_le_right _ _)]
      simp only [hone]
      show (min (min (s.queries.next+1) u64Max+n) u64Max : Nat)=min (s.queries.next+(n+1)) u64Max
      omega
    · simp only [reads_ask_later,heldReads_remove,hs,filter_nil]

variable {q : Queries (Then bareParts)}

/-- A held key pressed in a text field: its caret's read is recorded under the next number. -/
def heldKeyRead (q : Queries (Then bareParts)) : Logged bareParts :=
  ({view := editView, queries := q.ask ⟨0,0⟩ .read (.heldRead ⟨⟨0,0⟩,⟨1,(),10⟩⟩),
      held := {bounded := some 1}},
    ⟨[.forKey 1 (.boundHeldKey (some (1,heldReadBoundMs))),
      .forKey 1 (.request q.next ⟨0,0⟩ .readCaret)],[]⟩)

theorem heldKey_eq (hread : (heldKeyRead q).1.readingHeld.isSome) (hnone : q.heldReads=[]) :
    heldKey askingHandlers {view := editView, queries := q} ⟨1,(),10⟩=heldKeyRead q := by
  have hloop : nextHeldLoop askingHandlers (1+1)
      {view := editView, queries := q, held := {waiting := [.held ⟨1,(),10⟩]}} false =
      ((heldKeyRead q).1,(heldKeyRead q).2,none) := by
    rw [nextHeldLoop,if_neg (by simp [SrState.readingHeld,hnone])]
    change (let r := nextHeldLoop askingHandlers 1 (heldKeyRead q).1 true; (r.1,_++r.2.1,r.2.2))=_
    rw [nextHeldLoop,if_pos hread]
    rfl
  simp only [heldKey,nextHeld,nil_append,length_singleton]
  rw [hloop,if_neg fun hclear => absurd hread (by simpa using hclear.1)]

theorem reduce_heldKey (hnone : q.heldReads=[]) :
    let r := reduce askingHandlers {view := editView, queries := q} (.heldKey ⟨1,(),10⟩)
    r.1.exiting=false ∧ r.1.held.waiting=[] ∧ r.2.handled=[] ∧ r.1.queries.next=satAdd q.next 1 ∧
      r.1.queries.heldReads=[(q.next,⟨⟨0,0⟩,⟨1,(),10⟩⟩)] := by
  have hreads : (heldKeyRead q).1.queries.heldReads=[(q.next,⟨⟨0,0⟩,⟨1,(),10⟩⟩)] := by
    rw [heldKeyRead,reads_ask_heldRead,heldReads_remove,hnone]
    rfl
  have heq := heldKey_eq (by rw [SrState.readingHeld,hreads]; rfl) hnone
  rw [reduce_eq rfl]
  generalize hr : reduceInput _ _ _=r
  obtain rfl := hr.symm.trans heq
  have htraces : ∃ trace, (settled askingHandlers {view := editView, queries := q}
      (.heldKey ⟨1,(),10⟩) (heldKeyRead q)).1.queries =
      (heldKeyRead q).1.queries.alter q.next fun query => {query with trace := trace} :=
    ⟨_,if_pos (le_refl q.next)⟩
  obtain ⟨trace,htraces⟩ := htraces
  refine ⟨rfl,rfl,rfl,htraces ▸ rfl,?_⟩
  rw [htraces]
  refine (heldReads_alter_same ?_).trans hreads
  exact fun _ => rfl

theorem after_three (h : Handlers P) (view : View P) (a b c : Input P) :
    let first := reduce h {view} a
    let second := reduce h first.1 b
    let third := reduce h second.1 c
    (Run.after h view [a,b,c]).state=third.1 ∧ (Run.after h view [a,b,c]).handled =
      []++first.2.handled++second.2.handled++third.2.handled := ⟨rfl,rfl⟩

theorem reduce_other {s : SrState bareParts} (hs : s.exiting=false)
    (hruns : runActs s (askingHandlers.event s ())=({s with queries := q},{})) :
    reduce askingHandlers s (.other ())=({s with queries := q},{}) := by
  rw [reduce_eq hs]
  generalize hr : reduceInput _ _ _=r
  obtain rfl := hr.symm.trans hruns
  rfl

/-- With the numbers used up the next query takes the place of the read, and the key is lost. -/
theorem heldKey_overwritten :
    let inputs := [.other (),.heldKey ⟨1,(),10⟩,.other ()]
    let run := Run.after askingHandlers editView inputs
    run.state.exiting=false ∧ run.handled++run.state.line≠inputs.flatMap Input.arrivals := by
  obtain ⟨q,hruns,hnext,hnone⟩ := runActs_asking u64Max {view := editView}
  have hq : q.next=u64Max := (hnext (Nat.zero_le _)).trans (min_eq_right (Nat.le_add_left _ _))
  obtain ⟨hrunning,hwaiting,hhandled,hsecond,hread⟩ := reduce_heldKey (hnone rfl)
  have hfirst := reduce_other (s := {view := editView}) rfl hruns
  generalize hr : reduce askingHandlers {view := editView, queries := q} (.heldKey ⟨1,(),10⟩)=r
    at hrunning hwaiting hhandled hsecond hread
  have hlast : r.1.queries.next=q.next := by
    rw [hsecond,hq]
    decide +kernel
  have hone : runActs r.1 (askingHandlers.event r.1 ())=({r.1 with
      queries := r.1.queries.ask ⟨0,0⟩ .memory (.later .nothing)},{}) := by
    have hevent : askingHandlers.event r.1 ()=replicate 1 (.askMemory ⟨0,0⟩ .nothing) :=
      congrArg (replicate · _) (if_neg (by rw [hlast,hq]; decide +kernel))
    rw [hevent]
    rfl
  have hthird := reduce_other hrunning hone
  obtain ⟨hstate,hkeys⟩ := after_three askingHandlers editView (.other ()) (.heldKey ⟨1,(),10⟩)
    (.other ())
  simp only [hfirst,hr,hthird] at hstate hkeys
  have hlost : SrState.line {r.1 with
      queries := r.1.queries.ask ⟨0,0⟩ .memory (.later .nothing)}=[] := by
    simp only [SrState.line,SrState.readingHeld,reads_ask_later,heldReads_remove,hread,hlast,
      hwaiting]
    simp
  have hall := congrArg SrState.line hstate
  have hexiting := (congrArg SrState.exiting hstate).trans hrunning
  rw [hlost] at hall
  rw [hhandled] at hkeys
  refine ⟨hexiting,?_⟩
  rw [hall,hkeys]
  exact (cons_ne_nil _ _).symm

end Verbatim.Core
