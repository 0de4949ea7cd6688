import Verbatim.Outpost.Outstanding

namespace Verbatim.Outpost

open ReaderRules Framework TryQueue List Intake Option Bool Nat

namespace Reducer

variable {s : Reducer}

/-- The round whose idle query the pump's next turn reaches: one not put behind a noted caret. -/
def reaches (s : Reducer) : Option Nat :=
  match s.takes with
  | some (.run ⟨.barrier (.round round) behindNoted,_,_,_⟩,_) =>
      if !behindNoted && s.handed.intake.idle.isSome then none else some round
  | _ => none

def asked (s : Reducer) (round : Nat) : Reducer := {s.handed with idleQuery := some round}

def reachedFor (now : Now) : Nat → Reducer → List Nat
  | 0,_ => []
  | fuel+1,s =>
      match s.turn now with
      | none => []
      | some out => s.reaches.toList++reachedFor now fuel out.1

def looksFor (now : Now) : Nat → Reducer → List Reducer
  | 0,_ => []
  | fuel+1,s =>
      match s.turn now with
      | none => []
      | some out => s.reaches.toList.map s.asked++looksFor now fuel out.1

def reachedIn (st : Step) (now : Now) (s : Reducer) : List Nat :=
  reachedFor now (s.start st now).1.turns (s.start st now).1

/-- The reducer at each look of a step at a round's answer: in the pump, and after it. -/
def looks (st : Step) (now : Now) (s : Reducer) : List Reducer :=
  looksFor now (s.start st now).1.turns (s.start st now).1++[((s.start st now).1.pump now).1]

def answering (s : Reducer) : Bool := s.idleReady && s.idleQuery.isSome

theorem answerIdle_answers (s : Reducer) :
    idleAnswers s.answerIdle.2=([s].filter answering).filterMap (·.idleQuery) := by
  unfold answerIdle
  cases hready : s.idleReady <;> cases hround : s.idleQuery <;>
    simp [answering,hready,hround,idleAnswers,Effect.answered?]

theorem answerIdle_ready (s : Reducer) :
    s.answerIdle.1.idleReady=true → s.answerIdle.1.idleQuery=none := by
  unfold answerIdle
  split
  · exact fun _ => rfl
  next hnot => exact fun hready => absurd hready hnot

/-- A turn that reaches a round takes its idle query out and looks at its answer. -/
theorem turn_reaches {round : Nat} (h : s.reaches=some round) (now : Now) :
    s.turn now=some (s.asked round).answerIdle ∧ s.settled=false ∧ s.after=[] ∧
      ∃ barrier, barrier.isRound round=true ∧
        (∃ batch, (s.intake.next s.facts.marks.toMarks).2=some (.run barrier,batch)) ∧
        s.intake.take s.facts.marks.toMarks=(s.handed.intake,[barrier]) := by
  unfold reaches at h
  split at h
  next round' behindNoted trace observedAtUs front batch htakes =>
    obtain ⟨hturn,hsettled,hafter,hnext⟩ := turn_takes htakes now
    split at h
    · cases h
    next hnot =>
      obtain rfl := some.inj h
      have hput : s.handed.intake.putBehind
          (.run ⟨.barrier (.round round') behindNoted,trace,observedAtUs,front⟩)=none := by
        cases behindNoted with
        | true => rfl
        | false =>
          cases hidle : s.handed.intake.idle with
          | none => simp [putBehind,takeIdle,hidle]
          | some noted =>
            rw [hidle] at hnot
            exact absurd rfl hnot
      have hbarrier : s.handed.barrier (.round round') behindNoted
          ⟨.barrier (.round round') behindNoted,trace,observedAtUs,front⟩ =
          (s.asked round').answerIdle := by
        unfold barrier
        cases behindNoted with
        | true => cases s.handed.intake.idle <;> rfl
        | false =>
          cases hidle : s.handed.intake.idle with
          | none => rfl
          | some noted =>
            rw [hidle] at hnot
            exact absurd rfl hnot
      refine ⟨hturn.trans (congrArg some hbarrier),hsettled,hafter,_,?_,⟨batch,hnext⟩,?_⟩
      · exact isRound_iff.mpr ⟨behindNoted,rfl⟩
      unfold Intake.take
      have hsplit : s.intake.next s.facts.marks.toMarks =
          (s.handed.intake,some (.run ⟨.barrier (.round round') behindNoted,trace,
            observedAtUs,front⟩,batch)) := Prod.ext rfl hnext
      rw [hsplit]
      simp only [hput]
      rfl
  · cases h

theorem Speaks.idle {step : Reducer → Reduced} (h : Speaks step) (s : Reducer) :
    (step s).1.idleQuery=s.idleQuery := congrArg (fun trying => trying.2.2.2) (h.trying s)

theorem dispatch_idle (work : Work) (deadline : Nat) (window : Option Window)
    (running : Option (RequestId × TraceId)) (group : Option GroupTry) (now : Now) :
    (s.dispatch work deadline window running group now).1.idleQuery=s.idleQuery ∧
      idleAnswers (s.dispatch work deadline window running group now).2=[] := by
  have hwatch : (s.replaceWatch work now).1.idleQuery=s.idleQuery ∧
      idleAnswers (s.replaceWatch work now).2=[] := by
    unfold replaceWatch
    split
    · have hspeaks := Speaks.onSome (answerWatch_speaks now)
        (s.facts.follow.watch.endKept "the next caret key replaced it").2
      refine ⟨hspeaks.idle (s.withWatch _),?_⟩
      exact (Emits.onSome fun answer _ => answerWatch_emits now answer _).quiet
        fun _ (h : False) => h.elim
    · exact ⟨rfl,rfl⟩
  refine ⟨hwatch.1,?_⟩
  unfold dispatch
  simp only [andThen,idleAnswers_append,hwatch.2]
  rfl

theorem dispatchEntry_idle (entry : Entry) (handling : Handling) (batch : Nat)
    (group : Option GroupTry) (now : Now) :
    (s.dispatchEntry entry handling batch group now).1.idleQuery=s.idleQuery ∧
      idleAnswers (s.dispatchEntry entry handling batch group now).2=[] :=
  dispatch_idle _ _ _ _ _ now

variable {out : Reduced}

theorem turn_plain (h : s.reaches=none) {now : Now}
    (hturn : s.turn now=some out) : out.1.idleQuery=s.idleQuery ∧ idleAnswers out.2=[] := by
  cases turn_turned hturn with
  | attempted hsettled => exact dispatch_idle _ _ _ _ _ now
  | popped hsettled hafter => exact dispatchEntry_idle _ _ _ _ now
  | dropped hsettled => exact dispatch_idle _ _ _ _ _ now
  | @taken planned batch hsettled hafter hnext howed hdrop =>
    cases planned with
    | menu entry => exact dispatchEntry_idle _ _ _ _ now
    | focus entries =>
      cases entries with
      | nil => exact ⟨rfl,rfl⟩
      | cons newest older =>
        exact dispatchEntry_idle _ _ _ _ now
    | run entry =>
      have hruns := handle_runs s.handed entry batch now
      generalize s.handed.handle (.run entry) batch now=ran at hruns ⊢
      cases hruns with
      | @barrier asker behindNoted hitem =>
        obtain ⟨item,trace,observedAtUs,front⟩ := entry
        subst hitem
        have hnot : ∀ owed∈s.facts.follow.owed, owed.attempting.isNone=false := by
          intro owed howed'
          rw [mem_def.mp howed'] at howed
          cases hattempting : owed.attempting with
          | none => simp [hattempting] at howed
          | some _ => rfl
        have htakes : s.takes=some (.run ⟨.barrier asker behindNoted,trace,observedAtUs,
            front⟩,batch) := by
          unfold takes
          rw [hnext,if_neg]
          cases hwork : s.facts.follow.owed with
          | none => simp [hsettled,hafter,hdrop]
          | some owed => simp [hsettled,hafter,hdrop,hnot owed hwork]
        unfold barrier
        cases asker with
        | settle id => split <;> exact ⟨rfl,rfl⟩
        | round round =>
          simp only [reaches,htakes] at h
          split at h
          next hput =>
            cases behindNoted with
            | true => cases hput
            | false =>
              cases hidle : s.handed.intake.idle with
              | none => rw [hidle] at hput; cases hput
              | some noted => exact ⟨rfl,rfl⟩
          · cases h
      | dispatched hitem => exact dispatchEntry_idle _ _ _ _ now
      | read hitem hread => exact dispatchEntry_idle _ _ _ _ now
      | passed hitem | releasing hitem => exact ⟨rfl,rfl⟩
      | replied hitem =>
        exact ⟨(send_speaks _).idle s.handed,rfl⟩
  | @watchEnded watch answer hsettled hafter hnext hreach =>
    exact ⟨(answerWatch_speaks now answer).idle (s.handed.withWatch watch),
      answerWatch_quiet now answer _⟩
  | @polled watch hsettled hafter hnext hreach =>
    exact dispatch_idle .pollRead s.handling none none none now

/-- A program in flight that reads the gap record is deferred work. -/
def Honest (s : Reducer) : Prop :=
  ∀ running, s.flight.running=some running → running.item.inHand.work=.gapRead →
    running.item.deferred=true

theorem Carries.honest {s' : Reducer} (h : Carries s s') (hs : s.Honest) : s'.Honest := by
  intro running' hrunning' hread
  obtain ⟨running,hrunning,hhand,hkeeps⟩ := h running' hrunning'
  rw [hhand] at hread
  exact hkeeps hread (hs running hrunning hread)

theorem honest_of_idle (h : s.flight.running=none) : s.Honest := by
  intro running hrunning
  rw [h] at hrunning
  cases hrunning

theorem dispatch_honest (work : Work) (deadline : Nat) (window : Option Window)
    (running : Option (RequestId × TraceId)) (group : Option GroupTry) (now : Now) :
    (s.dispatch work deadline window running group now).1.Honest := by
  intro flying hflying hread
  obtain ⟨flying',hflying',hhand,hdeferred⟩ := dispatch_hand work deadline window running group now
  rw [hflying] at hflying'
  cases hflying'
  rw [hhand] at hread
  rw [hdeferred]
  cases work with
  | entry handled handling batch group =>
    change handled.item.workKind=.gapRead at hread
    change handled.item.isGapRead=true
    cases hitem : handled.item <;> rw [hitem] at hread <;> first | rfl | cases hread
  | _ => cases hread

theorem turn_honest {now : Now} (h : s.turn now=some out) : out.1.Honest := by
  have hentry : ∀ (t : Reducer) (entry : Entry) (handling : Handling) (batch : Nat)
      (group : Option GroupTry), (t.dispatchEntry entry handling batch group now).1.Honest :=
    fun t entry handling batch group => dispatch_honest _ _ _ _ _ now
  cases turn_turned h with
  | attempted hsettled => exact dispatch_honest _ _ _ _ _ now
  | popped hsettled hafter => exact hentry _ _ _ _ _
  | dropped hsettled => exact dispatch_honest _ _ _ _ _ now
  | @taken planned batch hsettled hafter hnext =>
    have hidle : s.handed.flight.running=none := running_of_unsettled hsettled
    cases planned with
    | menu entry => exact hentry _ _ _ _ _
    | focus entries =>
      cases entries with
      | nil => exact honest_of_idle hidle
      | cons newest older => exact hentry _ _ _ _ _
    | run entry =>
      have hruns := handle_runs s.handed entry batch now
      generalize s.handed.handle (.run entry) batch now=ran at hruns ⊢
      cases hruns with
      | @barrier asker behindNoted hitem =>
        refine honest_of_idle ?_
        rw [(barrier_queue asker behindNoted entry).1]
        exact hidle
      | dispatched hitem | read hitem hread => exact hentry _ _ _ _ _
      | passed hitem | releasing hitem => exact honest_of_idle hidle
      | replied hitem => exact ((send_speaks _).carries s.handed).honest (honest_of_idle hidle)
  | @watchEnded watch answer hsettled hafter hnext hreach =>
    exact ((answerWatch_speaks now answer).carries (s.handed.withWatch watch)).honest
      (honest_of_idle (running_of_unsettled hsettled))
  | @polled watch hsettled hafter hnext hreach =>
    intro running' hrunning' _
    simp only [deferring,InFlight.withItem] at hrunning'
    obtain ⟨running,_,rfl⟩ := map_eq_some_iff.mp hrunning'
    rfl

section Tracks

/-- The idle query of `round` arrived, and whatever is outstanding arrived after it. -/
def Past (arrived : List Entry) (round : Nat) (s : Reducer) : Prop :=
  ∃ barrier : Entry, barrier.isRound round=true ∧ Came arrived barrier ∧
    ∀ trace, s.Outstanding trace → After arrived barrier trace

/-- What holds of a run: the entries that `arrived`, the rounds `reached` and those `answered`. -/
structure Tracks (arrived : List Entry) (reached answered : List Nat) (s : Reducer) : Prop where
  sound : Sound s.intake
  keyed : Keyed s.intake
  fenced : Fenced arrived s.intake
  honest : s.Honest
  past : ∀ round, s.idleQuery=some round → Past arrived round s
  rounds : ∀ round, answered.count round+s.idleQuery.toList.count round +
    asking round s.intake.entries≤asking round arrived
  newest : ∀ round, reached.getLast?=some round → round∈answered ∨ s.idleQuery=some round
  known : ∀ round, s.idleQuery=some round → round∈reached

variable {arrived : List Entry} {reached answered : List Nat}

theorem new_tracks : Tracks [] [] [] new := by
  refine ⟨?_,new_keyed,?_,honest_of_idle rfl,?_,?_,?_,?_⟩
  · exact @run_sound [] ⟨by simp,by simp⟩
  · refine ⟨?_,List.Pairwise.nil,?_,?_⟩
    · exact forall_mem_nil _
    · exact forall_mem_nil _
    · exact forall_mem_nil _
  · exact fun round hround => by cases hround
  · exact fun round => by simp [new,Intake.new,Intake.entries,asking]
  · exact fun round hround => by cases hround
  · exact fun round hround => by cases hround

theorem start_tracks (st : Step) (now : Now) (h : Tracks arrived reached answered s)
    (hproper : ∀ entry∈s.arrivals now st, entry.proper=true) (hpromised : s.promised st=true) :
    Tracks (arrived++s.arrivals now st) reached answered (s.start st now).1 := by
  have hacts := start_acts s st now
  have hround := (start_begins s st now).2
  obtain ⟨hsound,hfenced⟩ := hacts.fenced hproper h.sound h.fenced
  refine ⟨hsound,hacts.keyed h.keyed,hfenced,(start_carries st now hpromised).honest h.honest,
    ?_,?_,?_,?_⟩
  · intro round hasked
    rw [hround] at hasked
    obtain ⟨barrier,hbarrier,hcame,hafter⟩ := h.past round hasked
    refine ⟨barrier,hbarrier,hcame.append _,fun trace htrace => ?_⟩
    rcases start_outstanding st now hpromised htrace with htrace | ⟨entry,hentry,rfl⟩
    · exact (hafter trace htrace).append _
    · exact hcame.after hentry
  · intro round
    have hle := hacts.asking_le hproper h.sound round
    have hrounds := h.rounds round
    rw [hround,asking_append]
    omega
  · rw [hround]
    exact h.newest
  · rw [hround]
    exact h.known

variable (h : Tracks arrived reached answered s)
include h

theorem turn_tracks (hplain : s.reaches=none) {now : Now}
    (hturn : s.turn now=some out) : Tracks arrived reached answered out.1 := by
  have hround := (turn_plain hplain hturn).1
  have hkept : Sound out.1.intake ∧ Fenced arrived out.1.intake ∧
      ∀ round, asking round out.1.intake.entries≤asking round s.intake.entries := by
    have hacts : ∀ i, Sound i → Fenced arrived i → Acts [] i out.1.intake →
        Sound out.1.intake ∧ Fenced arrived out.1.intake ∧
          ∀ round, asking round out.1.intake.entries≤asking round i.entries := by
      intro i hs hi hacts
      obtain ⟨hsound,hfenced⟩ := hacts.fenced (by simp) hs hi
      rw [append_nil] at hfenced
      exact ⟨hsound,hfenced,hacts.asking_le (by simp) hs⟩
    rcases turn_acts hturn with hturned | hturned
    · exact hacts _ h.sound h.fenced hturned
    obtain ⟨hsound,hfenced,hasking⟩ := hacts _
      (takes_sound (filled_sound h.sound) (take_takes _ _)) (take_fenced h.sound h.fenced) hturned
    refine ⟨hsound,hfenced,fun round => (hasking round).trans ?_⟩
    exact (le_add_right _ _).trans (take_asking h.sound s.facts.marks.toMarks round)
  obtain ⟨hsound,hfenced,hasking⟩ := hkept
  refine ⟨hsound,turn_keyed hturn h.keyed,hfenced,turn_honest hturn,?_,?_,?_,?_⟩
  · intro round hasked
    rw [hround] at hasked
    obtain ⟨barrier,hbarrier,hcame,hafter⟩ := h.past round hasked
    exact ⟨barrier,hbarrier,hcame,fun trace htrace =>
      hafter trace (turn_outstanding h.sound hturn htrace)⟩
  · intro round
    have hle := hasking round
    have hrounds := h.rounds round
    rw [hround]
    omega
  · rw [hround]
    exact h.newest
  · rw [hround]
    exact h.known

/-- A round is reached with nothing before its idle query outstanding. -/
theorem asked_tracks {round : Nat} (hreaches : s.reaches=some round) :
    Tracks arrived (reached++[round]) answered (s.asked round) := by
  obtain ⟨_,hsettled,hrows,barrier,hbarrier,⟨batch,hnext⟩,htake⟩ := turn_reaches hreaches ⟨0,0,0⟩
  have hidle := running_of_unsettled hsettled
  have hintake : (s.asked round).intake=(s.intake.take s.facts.marks.toMarks).1 := by
    rw [htake]
    rfl
  have hyes : barrier.item.isBarrier=true := by
    obtain ⟨behindNoted,hitem⟩ := isRound_iff.mp hbarrier
    rw [hitem]
    rfl
  have hfilled : Fenced arrived (s.intake.filled s.facts.marks.toMarks) :=
    filled_fenced h.sound h.fenced
  obtain ⟨rest,hbatch⟩ : ∃ rest,
      (s.intake.filled s.facts.marks.toMarks).batch=.run barrier::rest := by
    refine (next_handed hnext).resolve_right ?_
    rintro ⟨noted,hkept,heq⟩
    obtain rfl := Planned.run.inj heq
    rw [filled_frame.1] at hkept
    rw [not_barrier_of_noted (h.sound.kept barrier (by rw [hkept]; rfl))] at hyes
    cases hyes
  have hmem : barrier∈(s.intake.filled s.facts.marks.toMarks).plannedEntries := by
    rw [plannedEntries,hbatch]
    exact mem_append_left _ mem_cons_self
  -- The query ends its batch, so what is left waits behind it.
  have hleft : s.handed.intake.entries =
      (s.intake.filled s.facts.marks.toMarks).waiting.map (·.entry) := by
    obtain rfl := last_of_barrier (hbatch ▸ hfilled.last) mem_cons_self hyes
    change (s.intake.next s.facts.marks.toMarks).1.entries=_
    rw [next_eq,handOut,hbatch]
    simp [entries]
  refine ⟨?_,?_,?_,honest_of_idle hidle,?_,?_,?_,?_⟩
  · rw [hintake]
    exact takes_sound (filled_sound h.sound) (take_takes _ _)
  · rw [hintake]
    exact take_keyed h.keyed _
  · rw [hintake]
    exact take_fenced h.sound h.fenced
  · intro asked hasked
    cases hasked
    refine ⟨barrier,hbarrier,hfilled.came _ (mem_entries_of_planned hmem) hyes,?_⟩
    rintro trace (htrace | ⟨entry,hentry,_⟩ | ⟨running,hrunning,_⟩)
    · obtain ⟨entry,hentry,_,rfl⟩ := mem_traces.mp htrace
      change entry∈s.handed.intake.entries at hentry
      rw [hleft] at hentry
      obtain ⟨w,hw,rfl⟩ := mem_map.mp hentry
      exact hfilled.planned barrier hmem hyes w hw
    · have hqueue : (s.asked round).tryQueue=s.tryQueue := rfl
      rw [hqueue,idle_queue hsettled,hrows] at hentry
      cases hentry
    · change s.flight.running=some running at hrunning
      rw [hidle] at hrunning
      cases hrunning
  · intro other
    have hle := take_asking h.sound s.facts.marks.toMarks other
    have hrounds := h.rounds other
    rw [← hintake,htake] at hle
    have hcount : (s.asked round).idleQuery.toList.count other≤asking other [barrier] := by
      change [round].count other≤[barrier].countP (Entry.isRound other)
      by_cases hsame : round=other
      · subst hsame
        simp [hbarrier]
      · simp [hsame]
    simp only at hle
    omega
  · intro other hother
    rw [getLast?_concat] at hother
    exact .inr hother
  · intro other hother
    cases hother
    simp

theorem answerIdle_tracks :
    Tracks arrived reached (answered++idleAnswers s.answerIdle.2) s.answerIdle.1 := by
  unfold answerIdle
  split
  · have hanswers : idleAnswers (s.idleQuery.toList.map fun round => .send (.idleAnswer round)) =
        s.idleQuery.toList := by
      cases s.idleQuery <;> rfl
    simp only [hanswers]
    refine ⟨h.sound,h.keyed,h.fenced,h.honest,?_,?_,?_,?_⟩
    · exact fun round hround => by cases hround
    · intro round
      have hrounds := h.rounds round
      simp only [count_append,toList_none,count_nil,add_zero]
      exact hrounds
    · intro round hround
      rcases h.newest round hround with hanswered | hasked
      · exact .inl (mem_append_left _ hanswered)
      · exact .inl (mem_append_right _ (by rw [hasked]; exact mem_cons_self))
    · exact fun round hround => by cases hround
  · rw [idleAnswers_nil,append_nil]
    exact h

end Tracks

section Runs

variable {arrived : List Entry} {reached answered : List Nat}

/-- The rounds a pump answers are those its looks send, each with nothing before its idle query
outstanding. -/
theorem pumpFor_tracks (now : Now) (fuel : Nat) (h : Tracks arrived reached answered s) :
    Tracks arrived (reached++reachedFor now fuel s)
        (answered++idleAnswers (pumpFor now fuel s).2) (pumpFor now fuel s).1 ∧
      idleAnswers (pumpFor now fuel s).2 =
        ((looksFor now fuel s).filter answering).filterMap (·.idleQuery) ∧
      ∀ t∈looksFor now fuel s, ∃ reached' answered', Tracks arrived reached' answered' t ∧
        ∀ round∈reached', round∈reached++reachedFor now fuel s := by
  induction fuel generalizing s reached answered with
  | zero =>
    simp only [reachedFor,pumpFor,looksFor,idleAnswers_nil,append_nil]
    exact ⟨h,rfl,by simp⟩
  | succ fuel ih =>
    unfold reachedFor pumpFor looksFor
    cases hturn : s.turn now with
    | none =>
      simp only [idleAnswers_nil,append_nil]
      exact ⟨h,rfl,by simp⟩
    | some out =>
      simp only [andThen,idleAnswers_append]
      cases hreaches : s.reaches with
      | none =>
        obtain ⟨htracks,hanswers,hlooks⟩ := ih (turn_tracks h hreaches hturn)
        rw [(turn_plain hreaches hturn).2]
        exact ⟨htracks,hanswers,hlooks⟩
      | some round =>
        have hout := (turn_reaches hreaches now).1
        rw [hturn] at hout
        cases hout
        have hasked := asked_tracks h hreaches
        obtain ⟨htracks,hanswers,hlooks⟩ := ih (answerIdle_tracks hasked)
        rw [append_assoc,append_assoc] at htracks
        refine ⟨htracks,?_,?_⟩
        · rw [hanswers,answerIdle_answers,← filterMap_append,← filter_append]
          rfl
        intro t ht
        rcases mem_cons.mp ht with rfl | ht
        · exact ⟨_,_,hasked,fun other hother => by
            rw [← append_assoc]
            exact mem_append_left _ hother⟩
        obtain ⟨reached',answered',hlook,hsubset⟩ := hlooks t ht
        exact ⟨reached',answered',hlook,fun other hother => by
          have hother := hsubset other hother
          rwa [append_assoc] at hother⟩

theorem changed_answers (before : Reducer) (out : Reduced) :
    idleAnswers (changed before out).2=idleAnswers out.2 := by
  have hmarks : idleAnswers [.marks out.1.facts.marks]=[] := rfl
  have htimer : idleAnswers [.gapTimer out.1.intake.gap.dueUs]=[] := rfl
  unfold changed
  split <;> split <;> simp only [idleAnswers_append,hmarks,htimer,nil_append,append_nil]

theorem step_tracks (st : Step) (now : Now) (h : Tracks arrived reached answered s)
    (hproper : ∀ entry∈s.arrivals now st, entry.proper=true) (hpromised : s.promised st=true) :
    Tracks (arrived++s.arrivals now st) (reached++s.reachedIn st now)
        (answered++idleAnswers (s.step st now).2) (s.step st now).1 ∧
      idleAnswers (s.step st now).2=((s.looks st now).filter answering).filterMap (·.idleQuery) ∧
      (∀ t∈s.looks st now, ∃ reached' answered',
        Tracks (arrived++s.arrivals now st) reached' answered' t ∧
          ∀ round∈reached', round∈reached++s.reachedIn st now) ∧
      ((s.step st now).1.idleReady=true → (s.step st now).1.idleQuery=none) := by
  have hquiet := (start_emits s st now).quiet fun message ⟨change,hchange,hmessage⟩ =>
    promised_result hpromised hchange message hmessage
  obtain ⟨hpump,hanswers,hlooks⟩ := pumpFor_tracks now (s.start st now).1.turns
    (start_tracks st now h hproper hpromised)
  have hstep : (s.step st now).1=((s.start st now).1.pump now).1.answerIdle.1 ∧
      idleAnswers (s.step st now).2=idleAnswers ((s.start st now).1.pump now).2 ++
        idleAnswers ((s.start st now).1.pump now).1.answerIdle.2 := by
    rw [step_eq,changed_answers]
    unfold settle
    simp only [andThen,idleAnswers_append,hquiet,nil_append]
    exact ⟨rfl,trivial⟩
  rw [hstep.1,hstep.2]
  refine ⟨?_,?_,?_,answerIdle_ready _⟩
  · have htracks := answerIdle_tracks hpump
    rw [append_assoc] at htracks
    exact htracks
  · unfold looks
    rw [filter_append,filterMap_append,answerIdle_answers]
    exact congrArg (·++_) hanswers
  · intro t ht
    rcases mem_append.mp ht with ht | ht
    · exact hlooks t ht
    · rw [mem_singleton.mp ht]
      exact ⟨_,_,hpump,fun round hround => hround⟩

def arrivedBy : List (Step × Now) → Reducer → List Entry
  | [],_ => []
  | timed::steps,s =>
      s.arrivals timed.2 timed.1++arrivedBy steps (s.step timed.1 timed.2).1

def reachedBy : List (Step × Now) → Reducer → List Nat
  | [],_ => []
  | timed::steps,s =>
      s.reachedIn timed.1 timed.2++reachedBy steps (s.step timed.1 timed.2).1

def promisedRun : List (Step × Now) → Reducer → Bool
  | [],_ => true
  | timed::steps,s => s.promised timed.1 && promisedRun steps (s.step timed.1 timed.2).1

theorem runs_tracks (steps : List (Step × Now)) (h : Tracks arrived reached answered s)
    (hproper : ∀ entry∈arrivedBy steps s, entry.proper=true)
    (hpromised : promisedRun steps s=true) :
    Tracks (arrived++arrivedBy steps s) (reached++reachedBy steps s)
      (answered++idleAnswers (runs steps s).2) (runs steps s).1 := by
  induction steps generalizing s arrived reached answered with
  | nil =>
    simp only [arrivedBy,reachedBy,append_nil]
    change Tracks arrived reached (answered++[]) s
    rw [append_nil]
    exact h
  | cons timed steps ih =>
    obtain ⟨hfirst,hrest⟩ := and_eq_true_iff.mp hpromised
    have hstep := (step_tracks timed.1 timed.2 h
      (fun entry hentry => hproper entry (mem_append_left _ hentry)) hfirst).1
    have hrun := ih hstep (fun entry hentry => hproper entry (mem_append_right _ hentry)) hrest
    rw [append_assoc,append_assoc,append_assoc,← idleAnswers_append] at hrun
    exact hrun

variable (steps more : List (Step × Now))

theorem arrivedBy_append (s : Reducer) :
    arrivedBy (steps++more) s=arrivedBy steps s++arrivedBy more (runs steps s).1 := by
  induction steps generalizing s with
  | nil => rfl
  | cons timed steps ih => simp only [cons_append,arrivedBy,ih,append_assoc]; rfl

theorem reachedBy_append (s : Reducer) :
    reachedBy (steps++more) s=reachedBy steps s++reachedBy more (runs steps s).1 := by
  induction steps generalizing s with
  | nil => rfl
  | cons timed steps ih => simp only [cons_append,reachedBy,ih,append_assoc]; rfl

theorem promisedRun_append (s : Reducer) :
    promisedRun (steps++more) s=(promisedRun steps s && promisedRun more (runs steps s).1) := by
  induction steps generalizing s with
  | nil => rfl
  | cons timed steps ih => simp only [cons_append,promisedRun,ih,Bool.and_assoc]; rfl

/-- The hand-over is not held, no caret watch is open, the program in flight reads no gap record,
and no gap record's bound is still to be handled. -/
def atRest (s : Reducer) : Bool :=
  !s.hold.isHolding && s.facts.follow.watch.isNone && !s.readsGap && !s.intake.gap.pending

theorem atRest_of_ready (h : s.Honest) (hready : s.idleReady=true) : s.atRest=true := by
  simp only [idleReady,and_eq_true] at hready
  obtain ⟨⟨⟨hhold,hdeferred⟩,hwatch⟩,hgap⟩ := hready
  have hreads : s.readsGap=false := by
    unfold readsGap
    cases hrunning : s.flight.running with
    | none => rfl
    | some running =>
      rw [hrunning] at hdeferred
      simp only [any_some,decide_eq_false_iff_not]
      intro hread
      rw [any_some,h running hrunning hread] at hdeferred
      cases hdeferred
  simp [atRest,hhold,hwatch,hgap,hreads]

/-- A round's answer is sent at a look that finds the round reached, everything that arrived before
its idle query done with, and the reducer at rest; as often as the query arrived at most; and, once
a step leaves the reducer at rest with no deferred program in flight, for the last round reached. -/
theorem idle_answers_at_rest (steps : List (Step × Now)) (st : Step) (now : Now)
    (hproper : ∀ entry∈arrivedBy (steps++[(st,now)]) new, entry.proper=true)
    (hpromised : promisedRun (steps++[(st,now)]) new=true) :
    idleAnswers ((runs steps new).1.step st now).2 =
        (((runs steps new).1.looks st now).filter answering).filterMap (·.idleQuery) ∧
    (∀ t∈(runs steps new).1.looks st now, t.answering=true → ∃ round,
      t.idleQuery=some round ∧ round∈reachedBy (steps++[(st,now)]) new ∧
        Past (arrivedBy (steps++[(st,now)]) new) round t ∧ t.atRest=true) ∧
    (∀ round, (idleAnswers (runs (steps++[(st,now)]) new).2).count round ≤
      asking round (arrivedBy (steps++[(st,now)]) new)) ∧
    ∀ round, (reachedBy (steps++[(st,now)]) new).getLast?=some round →
      (runs (steps++[(st,now)]) new).1.atRest=true →
      (runs (steps++[(st,now)]) new).1.flight.running.any (·.item.deferred)=false →
      round∈idleAnswers (runs (steps++[(st,now)]) new).2 := by
  have hrun := runs_tracks (steps++[(st,now)]) new_tracks hproper hpromised
  rw [arrivedBy_append] at hproper
  rw [promisedRun_append,and_eq_true] at hpromised
  have hbefore := runs_tracks steps new_tracks
    (fun entry hentry => hproper entry (mem_append_left _ hentry)) hpromised.1
  have hlast : ∀ s : Reducer, arrivedBy [(st,now)] s=s.arrivals now st ∧
      reachedBy [(st,now)] s=s.reachedIn st now := fun s =>
    ⟨append_nil _,append_nil _⟩
  obtain ⟨_,hanswers,hlooks,hready⟩ := step_tracks st now hbefore
    (fun entry hentry => hproper entry (mem_append_right _ (by
      rw [(hlast _).1]
      exact hentry))) (by simpa [promisedRun] using hpromised.2)
  refine ⟨hanswers,?_,?_,?_⟩
  · intro t ht hsends
    obtain ⟨hidle,hsome⟩ := and_eq_true_iff.mp hsends
    obtain ⟨round,hround⟩ := isSome_iff_exists.mp hsome
    obtain ⟨reached',answered',htracks,hsubset⟩ := hlooks t ht
    refine ⟨round,hround,?_,?_,atRest_of_ready htracks.honest hidle⟩
    · rw [reachedBy_append,(hlast _).2]
      exact hsubset round (htracks.known round hround)
    · rw [arrivedBy_append,(hlast _).1]
      exact htracks.past round hround
  · intro round
    exact (le_add_right _ _).trans ((le_add_right _ _).trans (hrun.rounds round))
  · intro round hreached hrest hdeferred
    refine (hrun.newest round hreached).resolve_right fun hasked => ?_
    have hend : (runs (steps++[(st,now)]) new).1=((runs steps new).1.step st now).1 := by
      rw [runs_append]
      rfl
    rw [hend] at hasked hrest hdeferred
    simp only [atRest,and_eq_true] at hrest
    have hidle : ((runs steps new).1.step st now).1.idleReady=true := by
      simp [idleReady,hrest.1.1.1,hrest.1.1.2,hrest.2,hdeferred]
    rw [hready hidle] at hasked
    cases hasked

/-- A caret key's program opens its watch and ends, and a round's idle query is reached while the
watch is open. -/
def watchedRound : List (Step × Now) :=
  [(.input (.entry ⟨.fact (.uiaFocusDropped 1 true true) none,1,0,.untested⟩ .other),⟨0,0,0⟩),
    (.input (.entry ⟨.query ⟨.shell,1⟩ (.awaitCaret 0),2,0,.untested⟩ .other),⟨0,0,0⟩),
    (.input (.commit ⟨0,1⟩ {watch := some (.opens ⟨⟨.shell,1⟩,2,5,⟨0⟩,{},{}⟩ false)}),⟨0,0,0⟩),
    (.input (.finished ⟨0,1⟩ false false none),⟨0,0,0⟩),
    (.input (.entry ⟨.barrier (.round 7) false,3,0,.untested⟩ .other),⟨0,0,0⟩)]

theorem idle_answers_at_rest_of_watched :
    (idleAnswers (runs (watchedRound++[(.tick,⟨20000000,20000000,20000000⟩)]) new).2).count 7≤1 ∧
      7∈idleAnswers (runs (watchedRound++[(.tick,⟨20000000,20000000,20000000⟩)]) new).2 :=
  ⟨(idle_answers_at_rest watchedRound .tick ⟨20000000,20000000,20000000⟩ (by decide +kernel)
      (by decide +kernel)).2.2.1 7,
    (idle_answers_at_rest watchedRound .tick ⟨20000000,20000000,20000000⟩ (by decide +kernel)
      (by decide +kernel)).2.2.2 7 (by decide +kernel) (by decide +kernel) (by decide +kernel)⟩

/-- A focus event's program drops its copy, and the gap's read it asks for takes the watch, puts it
back and ends it. -/
def readEndsWatch : List (Step × Now) :=
  [(.input (.entry (focusEvent 20 4) .listener),⟨1,1,1⟩),
    (.input (.commit ⟨0,2⟩ {gap := [.copyDropped 20 20 1 4]}),⟨1,1,1⟩),
    (.input (.finished ⟨0,2⟩ false false none),⟨1,1,1⟩),
    (.input (.commit ⟨0,3⟩ {watch := some (.take 5)}),⟨1,1,1⟩),
    (.input (.commit ⟨0,3⟩ {watch := some (.checked (.watching {}))}),⟨1,1,1⟩),
    (.input (.commit ⟨0,3⟩ {replaced := some 5}),⟨1,1,1⟩)]

/-- A focus event's program takes the watch and answers it. -/
def programAnswersWatch : List (Step × Now) :=
  [(.input (.entry (focusEvent 20 4) .listener),⟨1,1,1⟩),
    (.input (.commit ⟨0,2⟩ {watch := some (.take 5)}),⟨1,1,1⟩),
    (.input (.commit ⟨0,2⟩ {watch := some (.checked (.answered (.said 1) {} 0))}),⟨1,1,1⟩)]

/-- A round no idle query asked is answered by a program's commit; an answer is sent with the gap's
read in flight, which put the watch back; and a round is not answered with the reducer at rest, the
program that answered the watch in flight. -/
theorem idle_answers_unpromised :
    (idleAnswers (runs [(.input (.entry ⟨.query ⟨.shell,1⟩ .text,1,0,.untested⟩ .other),⟨0,0,0⟩),
          (.input (.commit ⟨0,1⟩ {result := some (.idleAnswer 9)}),⟨0,0,0⟩)] new).2=[9] ∧
      reachedBy [(.input (.entry ⟨.query ⟨.shell,1⟩ .text,1,0,.untested⟩ .other),⟨0,0,0⟩),
        (.input (.commit ⟨0,1⟩ {result := some (.idleAnswer 9)}),⟨0,0,0⟩)] new=[]) ∧
    (idleAnswers (runs (watchedRound++readEndsWatch) new).2=[7] ∧
      idleAnswers (runs (watchedRound++readEndsWatch.dropLast) new).2=[] ∧
      (runs (watchedRound++readEndsWatch) new).1.readsGap=true) ∧
    (reachedBy (watchedRound++programAnswersWatch) new).getLast?=some 7 ∧
      (runs (watchedRound++programAnswersWatch) new).1.atRest=true ∧
      idleAnswers (runs (watchedRound++programAnswersWatch) new).2=[] := by
  decide +kernel

end Runs

end Reducer

end Verbatim.Outpost
