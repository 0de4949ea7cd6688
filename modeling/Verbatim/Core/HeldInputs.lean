import Verbatim.Core.HeldLine

namespace Verbatim.Core

open Queries List SrState Option Framework

variable {P : Parts} {h : Handlers P} {before : List (WaitingKey P)} {s s' : SrState P}
  {log : Log P}
  {id : QueryId} {query : Open (Then P)} {reading : HeldRead P} {front : WaitingKey P}

theorem line_append (keys : List (WaitingKey P)) :
    line {s with held := {s.held with waiting := s.held.waiting++keys}}=s.line++keys := by
  rw [line,line,append_assoc]
  rfl

/-- The key in hand when a query ends: the one whose caret was read. -/
def Then.keys : Then P → List (WaitingKey P)
  | .heldRead reading => [.held reading.key]
  | .later _ => []

theorem Queries.Good.heldReads_eq {q : Queries (Then P)} (hgood : q.Good)
    (hmem : (id,reading)∈q.heldReads) : q.heldReads=[(id,reading)] := by
  have hsingle := hgood.single
  cases hreads : q.heldReads with
  | nil => simp [hreads] at hmem
  | cons first rest =>
    rw [hreads] at hmem hsingle
    obtain rfl : rest=[] := length_eq_zero_iff.mp (by simpa using hsingle)
    rw [mem_singleton.mp hmem]

theorem heldReads_remove_sublist (q : Queries (Then P)) (id : QueryId) :
    (q.remove id).heldReads.Sublist q.heldReads := by
  rw [heldReads_remove]
  exact filter_sublist

theorem heldReads_remove_read {q : Queries (Then P)} (hgood : q.Good)
    (hmem : (id,reading)∈q.heldReads) : (q.remove id).heldReads=[] := by
  rw [heldReads_remove,hgood.heldReads_eq hmem]
  simp

/-- What closing a query of the table leaves: the key in hand, then the rest of the line. -/
structure Closes (s s₀ : SrState P) (keys : List (WaitingKey P)) : Prop where
  starts : Starts s s₀
  good : s₀.queries.Good
  line : keys++s₀.line=s.line
  armed : keys=[] → Armed s → Armed s₀

/-- What runs when a query ends is a part of a step, the key in hand first. -/
structure Ends (keys : List (WaitingKey P)) (s s' : SrState P) (log : Log P) : Prop
    extends Step (keys++s.line) s s' log where
  armed : ReadBounded s → (keys=[] → Armed s) → Armed s'

theorem Closes.keeps {s₀ : SrState P} {keys : List (WaitingKey P)} (hcloses : Closes s s₀ keys)
    (hends : Ends keys s₀ s' log) : Keeps s.line s s' log where
  toStep := hcloses.starts.step (hcloses.line ▸ hends.toStep)
  armed hs := hends.armed (hcloses.starts.bounded hs.read) fun hkeys => hcloses.armed hkeys hs

theorem Resumes.ends {keys : List (WaitingKey P)} (hresumes : Resumes (keys++s.line) s s' log) :
    Ends keys s s' log :=
  ⟨hresumes.toStep,fun hs _ => hresumes.armed hs⟩

theorem trace_of_waits {trace : TraceId}
    (hwaits : front.waits.map (·.1)=some trace) : front.trace=trace := by
  cases front with
  | held key | command input => exact some.inj hwaits
  | later input => cases hwaits

theorem Armed.bounded_eq (harmed : Armed s) {rest : List (WaitingKey P)}
    (hline : s.line=front::rest) : s.held.bounded=some front.trace := by
  cases hreading : s.readingHeld with
  | some reading =>
    rw [line,hreading] at hline
    rw [harmed.read reading hreading,← (List.cons.inj hline).1]
    rfl
  | none =>
    rw [line_of_none hreading] at hline
    obtain hempty | ⟨-,trace,hfront,hbounded⟩ := harmed.wait hreading
    · rw [hempty] at hline
      cases hline
    · rw [SrState.front,hline] at hfront
      rw [hbounded,trace_of_waits hfront]

theorem heldKeyDue_of_wait (hnone : s.readingHeld=none) {trace : TraceId}
    (hawaits : s.held.awaitingWatch.isSome) (hfront : s.front=some trace)
    (hbounded : s.held.bounded=some trace) :
    heldKeyDue h s trace=nextHeld h
      {s with held := {s.held with bounded := none, awaitingWatch := none}} true := by
  have hnone' : readingHeld {s with held := {s.held with bounded := none}}=none := hnone
  simp only [heldKeyDue,if_neg (not_not_intro hbounded)]
  rw [hnone']
  exact if_pos ⟨by simp [hnone'],hawaits,hfront⟩

theorem due_starts (hnone : s.readingHeld=none) (held : HeldKeys P)
    (hbounded : held.bounded=none) : Starts s {s with held} := by
  refine ⟨rfl,fun _ hplain => hplain,fun _ htrace => ?_,fun _ reading hreading => ?_⟩
  · rw [hbounded] at htrace
    cases htrace
  have hreading : s.readingHeld=some reading := hreading
  rw [hnone] at hreading
  cases hreading

theorem line_of_idle (hidle : ¬s.heldBusy) : s.line=[] := by
  rw [heldBusy,Bool.or_eq_true,not_or] at hidle
  rw [line_of_none (not_isSome_iff_eq_none.mp hidle.1)]
  simpa using hidle.2

theorem Quiet.arrives (hquiet : Quiet s s' log) (hidle : ¬s.heldBusy) {key : WaitingKey P}
    (hkey : key.heldTrace=none) : Keeps (s.line++[key]) s s' (log++⟨[],[key]⟩) where
  toStep := by
    have hstep := hquiet.handles key [] (by rw [hkey]; rfl) (fun _ => rfl) rfl
    rw [line_of_idle hidle] at hstep ⊢
    exact hstep
  armed := hquiet.keeps.armed

theorem KeepsLine.refl : KeepsLine s (s,{}) := Given.refl fun hs => (Quiet.refl hs).keeps

theorem KeepsLine.andThen {r : Logged P} {next : SrState P → Logged P}
    (h : KeepsLine s r) (h' : KeepsLine r.1 (next r.1)) : KeepsLine s (andThen r next) :=
  Given.trans h h' (fun _ hkeeps => hkeeps.good) fun _ => Keeps.trans

theorem queued_keeps (hbusy : s.heldBusy) (key : WaitingKey P) (hgood : s.queries.Good) :
    Keeps (s.line++[key]) s {s with held := {s.held with waiting := s.held.waiting++[key]}} {} where
  toStep := by
    rw [← line_append]
    exact Starts.step (starts_held (by rfl)) (Step.refl (by exact hgood))
  armed hs := by
    refine ⟨hs.read,fun hnone => ?_⟩
    have hnone : s.readingHeld=none := hnone
    obtain hempty | ⟨hawaits,trace,hfront,hbounded⟩ := hs.wait hnone
    · simp [heldBusy,hnone,hempty] at hbusy
    refine .inr ⟨hawaits,trace,?_,hbounded⟩
    rw [front] at hfront ⊢
    cases hwaiting : s.held.waiting with
    | nil => simp [hwaiting] at hfront
    | cons front waiting => simpa [hwaiting] using hfront

theorem queued_resumes (key : WaitingKey P) (behind : Bool) :
    let r := nextHeld h {s with held := {s.held with waiting := s.held.waiting++[key]}} behind
    Given s.queries.Good s r.1 (Resumes (s.line++[key]) s r.1 r.2) := by
  rw [← line_append]
  have hresumes := nextHeld_resumes (h := h)
    (s := {s with held := {s.held with waiting := s.held.waiting++[key]}}) behind
  exact ⟨hresumes.exiting,hresumes.next,fun hfew hs =>
    Starts.resumes (starts_held (by rfl)) (hresumes.holds hfew hs)⟩

theorem queueCommand_keeps (input : Command P) :
    let r := queueCommand h s input
    Given s.queries.Good s r.1 (Keeps (s.line++[.command input]) s r.1 r.2) := by
  rw [queueCommand]
  split
  next hbusy => exact ⟨rfl,fun _ => Nat.le_refl _,fun _ => queued_keeps hbusy _⟩
  · exact (queued_resumes _ true).imp (fun hs => hs) fun _ => Resumes.keeps

theorem passHeld_resumes (key : HeldKey P) (atMs : Nat) :
    let r := andThen (passHeld h s key atMs) (fun s => nextHeld h s true)
    Given s.queries.Good s r.1 (Resumes (.held key::s.line) s r.1 r.2) :=
  (passHeld_step key atMs).trans (nextHeld_resumes true) (fun _ hstep => hstep.good)
    fun _ => Step.resumes

theorem heldRead_resumes (reading : HeldRead P) (reply : Reply P) :
    let r := heldRead h s reading reply
    Given s.queries.Good s r.1 (Resumes (.held reading.key::s.line) s r.1 r.2) := by
  cases reply with
  | caret readAtMs caret =>
    exact Given.trans (quiet_of_view (h.updateCaret reading.node caret readAtMs s.view))
      (passHeld_resumes (h := h) reading.key
        (if readAtMs=0 then reading.key.pressedAtMs else satAdd readAtMs 1))
      (fun _ hview => hview.good) fun _ hview hpass => hview.before_resumes hpass
  | snapshot _ | gone | unanswered | other _ => exact passHeld_resumes reading.key _

theorem heldReadContinued_resumes (trace : TraceId) (reading : HeldRead P) (ending : Ending P) :
    let r := heldReadContinued h s trace reading ending
    Given s.queries.Good s r.1 (Resumes (.held reading.key::s.line) s r.1 r.2) := by
  rw [heldReadContinued]
  split
  · exact Given.trans (runActs_quiet _) (heldRead_resumes reading _) (fun _ hacts => hacts.good)
      fun _ hacts hread => hacts.before_resumes (hacts.line ▸ hread)
  · exact heldRead_resumes reading _

theorem removed_closes (hgood : s.queries.Good) (hlookup : s.queries.lookup id=some query) :
    Closes s {s with queries := s.queries.remove id} query.continues.keys := by
  have hmem := lookup_mem hlookup
  have hplains : ∀ other, s.queries.Plain other → (s.queries.remove id).Plain other :=
    fun other hplain reading hreading =>
      hplain reading ((heldReads_remove_sublist _ _).subset hreading)
  cases hcont : query.continues with
  | heldRead reading =>
    have hread := mem_heldReads.mpr ⟨query,hmem,hcont⟩
    have hnone := heldReads_remove_read hgood hread
    have hreading : readingHeld {s with queries := s.queries.remove id}=none := by
      rw [readingHeld,hnone]
      rfl
    refine ⟨⟨rfl,hplains,fun _ htrace => htrace,fun _ other hother => ?_⟩,hgood.remove id,?_,
      fun hkeys => by cases hkeys⟩
    · rw [hreading] at hother
      cases hother
    · rw [line_of_none hreading,line,readingHeld,hgood.heldReads_eq hread]
      rfl
  | later continuation =>
    have hreads := heldReads_remove_plain (hgood.plain_of_later hmem hcont)
    have hquiet := quiet_of_queries (hgood.remove id) hreads (Nat.le_refl _)
    exact ⟨⟨rfl,hplains,fun _ htrace => htrace,hquiet.step.bounded⟩,hgood.remove id,
      hquiet.line,fun _ => hquiet.keeps.armed⟩

section Ending

variable {later : SrState P → Later P → Logged P}
  (hlater : ∀ s continuation, KeepsLine s (later s continuation))

include hlater

theorem continues_ends (trace : TraceId) (continues : Then P) (ending : Ending P) :
    let r := match continues with
      | .heldRead reading => heldReadContinued h s trace reading ending
      | .later continuation => later s continuation
    Given s.queries.Good s r.1 (Ends continues.keys s r.1 r.2) := by
  cases continues with
  | heldRead reading =>
    exact (heldReadContinued_resumes trace reading ending).imp (fun hs => hs)
      fun _ hresumes => Resumes.ends hresumes
  | later continuation =>
    exact (hlater s continuation).imp (fun hs => hs)
      fun _ hkeeps => ⟨hkeeps.toStep,fun _ hs => hkeeps.armed (hs rfl)⟩

theorem endedWith_ends (trace : TraceId) (id : QueryId) (continues : Then P) (ending : Ending P) :
    let r := endedWith h later s trace id continues ending
    Given s.queries.Good s r.1 (Ends continues.keys s r.1 r.2) := by
  by_cases hresume : s.held.awaitingWatch=some id
  · have hresumes := (continues_ends (h := h)
      (s := {s with held := {s.held with awaitingWatch := none}}) hlater trace
        continues ending).trans
      (nextHeld_resumes (h := h) true) (fun _ hends => hends.good)
      fun _ hends hnext => hends.toStep.resumes hnext
    have hstarts : Starts s {s with held := {s.held with awaitingWatch := none}} :=
      starts_held rfl
    simp only [endedWith,if_pos hresume]
    exact ⟨hresumes.exiting,hresumes.next,fun hfew hs =>
      (hstarts.resumes (hresumes.holds hfew hs)).ends⟩
  · have hends := continues_ends (h := h) (s := s) hlater trace continues ending
    simp only [endedWith,if_neg hresume,andThen]
    rw [Log.append_empty]
    exact hends

theorem closed_keeps (hlookup : s.queries.lookup id=some query)
    (trace : TraceId) (ending : Ending P) :
    KeepsLine s (endedWith h later {s with queries := s.queries.remove id} trace id query.continues
      ending) := by
  have hends := endedWith_ends (h := h) (s := {s with queries := s.queries.remove id})
    hlater trace id
    query.continues ending
  exact ⟨hends.exiting,hends.next,fun hfew hs =>
    have hcloses := removed_closes hs hlookup
    hcloses.keeps (hends.holds hfew hcloses.good)⟩

end Ending

theorem Quietly.keeps {r : Logged P} (h : Quietly s r) : KeepsLine s r :=
  Given.imp h (fun hs => hs) fun _ => Quiet.keeps

theorem answerFromMemory_keeps (trace : TraceId) (id : QueryId) (reply : Reply P) :
    KeepsLine s (answerFromMemory h s trace id reply) := by
  rw [answerFromMemory]
  split
  · exact .refl
  next query hlookup =>
    exact closed_keeps (fun _ _ => (runActs_quiet _).keeps) hlookup trace _

theorem runTurns_keeps (turns : List (Turn P)) : KeepsLine s (runTurns h s turns) := by
  induction turns generalizing s with
  | nil => exact .refl
  | cons turn turns ih =>
    refine KeepsLine.andThen ?_ ih
    cases turn with
    | act act => exact (runAct_quiet act).keeps
    | answer trace id reply => exact answerFromMemory_keeps trace id reply

theorem ended_keeps (hlookup : s.queries.lookup id=some query)
    (trace : TraceId) (ending : Ending P) :
    KeepsLine s
      (ended h {s with queries := s.queries.remove id} trace id query.continues ending) := by
  refine closed_keeps (fun s continuation => ?_) hlookup trace ending
  cases continuation with
  | terminalModel ask => exact runTurns_keeps _
  | nothing => exact .refl
  | caret pending | supersededCaret node | other continuation => exact (runActs_quiet _).keeps

theorem answered_keeps (trace : TraceId) (id : QueryId)
    (outpost : OutpostId) (outcome : Outcome P) :
    KeepsLine s (answered h s trace id outpost outcome) := by
  rw [answered]
  split
  · exact .refl
  next query hlookup =>
    split
    · exact .refl
    · exact ended_keeps hlookup trace _

theorem endGone_keeps (trace : TraceId) (ids : List QueryId) :
    KeepsLine s (endGone h trace ids s) := by
  induction ids generalizing s with
  | nil => exact .refl
  | cons id ids ih =>
    rw [endGone]
    refine KeepsLine.andThen ?_ ih
    split
    · exact .refl
    next query hlookup => exact ended_keeps hlookup _ _

theorem heldKeyDue_grows (trace : TraceId) : Given False s (heldKeyDue h s trace).1 True := by
  have hwait (held : HeldKeys P) : Given False s (heldWaitEnded h {s with held} trace).1 True := by
    simp only [heldWaitEnded]
    split
    · have hnext := nextHeld_resumes (h := h)
        (s := {s with held := {held with awaitingWatch := none}}) true
      exact ⟨hnext.exiting,hnext.next,fun _ => False.elim⟩
    · exact ⟨rfl,fun _ => Nat.le_refl _,fun _ => False.elim⟩
  simp only [heldKeyDue]
  split
  · exact .refl False.elim
  split
  next id reading _ =>
    split
    · have hread := heldRead_resumes (h := h) (s := {s with
        queries := s.queries.remove id, held := {s.held with bounded := none}}) reading .unanswered
      exact ⟨hread.exiting,hread.next,fun _ => False.elim⟩
    · exact hwait _
  · exact hwait _

section Due

variable (hgood : s.queries.Good)

include hgood

theorem heldKeyDue_of_read
    (hread : s.readingHeld=some (id,reading)) (hbounded : s.held.bounded=some reading.key.trace) :
    ∃ s₀ outpost, s₀.queries=s.queries.remove id ∧ s₀.held={s.held with bounded := none} ∧
      heldKeyDue h s reading.key.trace=andThen (emitting s₀ [.withdraw outpost id])
        fun s => heldRead h s reading .unanswered := by
  obtain ⟨query,hquery,-⟩ := mem_heldReads.mp (mem_of_mem_head? hread)
  refine ⟨{s with held := {s.held with bounded := none}, queries := s.queries.remove id},
    query.outpost,rfl,rfl,?_⟩
  have hread' : readingHeld {s with held := {s.held with bounded := none}} =
      some (id,reading) := hread
  simp only [heldKeyDue,if_neg (not_not_intro hbounded)]
  rw [hread',filter_some,if_pos (by simp)]
  simp only [hgood.lookup_of_mem hquery]

/-- The read before a held key has run out: it is withdrawn, and the key passed on. -/
theorem heldKeyDue_read (hread : s.readingHeld=some (id,reading))
    (hbounded : s.held.bounded=some reading.key.trace)
    (hfew : (heldKeyDue h s reading.key.trace).1.queries.next<u64Max) :
    Resumes s.line s (heldKeyDue h s reading.key.trace).1 (heldKeyDue h s reading.key.trace).2 ∧
      ∃ rest, (heldKeyDue h s reading.key.trace).2.handled=.held reading.key::rest := by
  obtain ⟨s₀,outpost,hqueries,hheld,hdue⟩ := heldKeyDue_of_read (h := h) hgood hread hbounded
  have hmem : (id,reading)∈s.queries.heldReads := mem_of_mem_head? hread
  have hgood₀ : s₀.queries.Good := hqueries ▸ hgood.remove id
  have hnone : s₀.readingHeld=none := by
    rw [readingHeld,hqueries,heldReads_remove_read hgood hmem]
    rfl
  have hline : s.line=.held reading.key::s₀.line := by
    rw [line_of_none hnone,hheld,line,hread]
    rfl
  have hstarts : Starts s s₀ := by
    refine ⟨by rw [hqueries]; rfl,fun other hplain reading hreading => ?_,?_,?_⟩
    · rw [hqueries] at hreading
      exact hplain reading ((heldReads_remove_sublist _ _).subset hreading)
    · intro trace htrace
      rw [hheld] at htrace
      cases htrace
    · intro _ other hother
      rw [hnone] at hother
      cases hother
  rw [hdue] at hfew ⊢
  have hpassed := (passHeld_spec (h := h) (s := s₀) reading.key reading.key.pressedAtMs).holds
    (lt_of_le_of_lt ((nextHeld_resumes true).next hfew) hfew) hgood₀
  refine ⟨hline ▸ hstarts.resumes (Quiet.before_resumes ?_
    ((heldRead_resumes reading .unanswered).holds hfew hgood₀)),_,congrArg (·++_) hpassed.2⟩
  exact (emitting_quiet (s := s₀) (by simp [Silent,Effect.passed,Effect.bounds])
    (by simp [reviewed,Effect.review])).holds
    (lt_of_le_of_lt ((heldRead_resumes (h := h) reading .unanswered).next hfew) hfew) hgood₀

end Due

theorem heldKeyDue_keeps (trace : TraceId) :
    let r := heldKeyDue h s trace
    Given (s.queries.Good ∧ Armed s) s r.1 (Keeps s.line s r.1 r.2) := by
  refine ⟨(heldKeyDue_grows trace).exiting,(heldKeyDue_grows trace).next,
    fun hfew ⟨hgood,harmed⟩ => ?_⟩
  by_cases hbounded : s.held.bounded=some trace
  · cases hreading : s.readingHeld with
    | some read =>
      obtain ⟨id,reading⟩ := read
      obtain rfl : reading.key.trace=trace :=
        some.inj ((harmed.read _ hreading).symm.trans hbounded)
      exact (heldKeyDue_read hgood hreading hbounded hfew).1.keeps
    | none =>
      obtain hempty | ⟨hawaits,trace',hfront,hbounded'⟩ := harmed.wait hreading
      · have hdue : heldKeyDue h s trace=({s with held := {s.held with bounded := none}},{}) := by
          have hnone : readingHeld {s with held := {s.held with bounded := none}} =
              none := hreading
          simp only [heldKeyDue,if_neg (not_not_intro hbounded)]
          rw [hnone]
          simp [heldWaitEnded,hempty]
        have hstarts := due_starts hreading {s.held with bounded := none} rfl
        have hrefl := Step.refl (s := {s with held := {s.held with bounded := none}}) hgood
        rw [hdue]
        exact ⟨hstarts.step hrefl,fun hs => ⟨hstarts.bounded hs.read,fun _ => .inl hempty⟩⟩
      · obtain rfl : trace'=trace := some.inj (hbounded'.symm.trans hbounded)
        rw [heldKeyDue_of_wait hreading hawaits hfront hbounded] at hfew ⊢
        have hstarts :=
          due_starts hreading {s.held with bounded := none, awaitingWatch := none} rfl
        exact (hstarts.resumes ((nextHeld_resumes true).holds hfew hgood)).keeps
  · rw [heldKeyDue,if_pos hbounded]
    exact (Quiet.refl hgood).keeps

/-- Entering the deadline of the head of the line goes on with it: a key read is passed on, another
is passed on or read, and a command is run. -/
theorem heldKeyDue_advances (hgood : s.queries.Good) (harmed : Armed s)
    {rest : List (WaitingKey P)} (hline : s.line=front::rest)
    (hfew : (heldKeyDue h s front.trace).1.queries.next<u64Max) :
    Advances front (heldKeyDue h s front.trace).1 (heldKeyDue h s front.trace).2 ∧
      (s.readingHeld.isSome → (heldKeyDue h s front.trace).2.handled≠[]) := by
  have hbounded := harmed.bounded_eq hline
  cases hreading : s.readingHeld with
  | some read =>
    obtain ⟨id,reading⟩ := read
    rw [line,hreading] at hline
    obtain rfl : .held reading.key=front := (List.cons.inj hline).1
    obtain ⟨handled,hhandled⟩ := (heldKeyDue_read hgood hreading hbounded hfew).2
    refine ⟨.inl ⟨handled,hhandled⟩,fun _ hempty => ?_⟩
    rw [WaitingKey.trace,hhandled] at hempty
    cases hempty
  | none =>
    rw [line_of_none hreading] at hline
    obtain hempty | ⟨hawaits,trace,hfront,hbounded'⟩ := harmed.wait hreading
    · rw [hempty] at hline
      cases hline
    obtain rfl : front.trace=trace := some.inj (hbounded.symm.trans hbounded')
    rw [heldKeyDue_of_wait hreading hawaits hfront hbounded] at hfew ⊢
    exact ⟨nextHeld_advances true hfew hgood hreading hline rfl,fun hsome => by cases hsome⟩

theorem reduceInput_keeps (input : Input P) (hinput : ∀ exit, input≠.exiting exit) :
    let r := reduceInput h s input
    Given (s.queries.Good ∧ Armed s) s r.1 (Keeps (s.line++input.arrivals) s r.1 r.2) := by
  have plain {r : Logged P} (hkeeps : KeepsLine s r) :
      Given (s.queries.Good ∧ Armed s) s r.1 (Keeps (s.line++[]) s r.1 r.2) :=
    Given.imp hkeeps And.left fun _ hkeeps => (append_nil _).symm ▸ hkeeps
  cases input with
  | answered trace id outpost outcome => exact plain (answered_keeps trace id outpost outcome)
  | outpostEnded trace outpost =>
    exact plain (KeepsLine.andThen (runActs_quiet _).keeps (endGone_keeps trace _))
  | command input =>
    rw [reduceInput]
    split
    · exact (queueCommand_keeps input).imp And.left fun _ hkeeps => hkeeps
    next hidle =>
      exact (runActs_quiet (h.command s input)).imp And.left fun _ hquiet =>
        hquiet.arrives (fun hbusy => hidle (.inl hbusy)) rfl
  | key input =>
    rw [reduceInput]
    split
    next hbusy => exact ⟨rfl,fun _ => Nat.le_refl _,fun _ hs => queued_keeps hbusy _ hs.1⟩
    next hidle =>
      exact (keyInput_quiet input).imp And.left fun _ hquiet => hquiet.arrives hidle rfl
  | heldKey key =>
    exact (queued_resumes (.held key) false).imp And.left fun _ => Resumes.keeps
  | heldKeyDue trace =>
    exact (heldKeyDue_keeps trace).imp (fun hs => hs) fun _ hkeeps => (append_nil _).symm ▸ hkeeps
  | exiting exit => exact absurd rfl (hinput exit)
  | other event => exact plain (runActs_quiet _).keeps

end Verbatim.Core
