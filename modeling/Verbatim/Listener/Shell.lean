import Verbatim.Listener.Steps

namespace Verbatim.Listener

open Framework ReaderRules List ScheduleEffect ScheduleInput

variable {J R F : Type}

/-- One step of a run: the input, when it came, and the effects it had. -/
structure Entry (J R F : Type) where
  input : ScheduleInput J R F
  now : Nat
  effects : List (ScheduleEffect J R F)

abbrev Log (J R F : Type) := List (Entry J R F)

def history (pid : Pid) (log : Log J R F) : List Act :=
  log.flatMap fun entry => entry.input.given pid++actsOf pid entry.effects

def pushes (log : Log J R F) : List (Pid × Nat) :=
  log.filterMap (fun entry => match entry.input with
    | .push pid info _ _ _ _ => some (pid,info.marker)
    | _ => none)

def outcomeOf : ScheduleEffect J R F → Option (Pid × Nat)
  | .outcome pid info _ => some (pid,info.marker)
  | _ => none

def outcomes (log : Log J R F) : List (Pid × Nat) :=
  log.flatMap fun entry => entry.effects.filterMap outcomeOf

def askOf : ScheduleEffect J R F → Option (Pid × Ask)
  | .judge pid request window => some (pid,.judge request (some window))
  | .publish pid request thenAbandon => some (pid,.publish request thenAbandon)
  | _ => none

def spawnOf : ScheduleEffect J R F → Option (Pid × Nat)
  | .spawn pid generation _ => some (pid,generation)
  | _ => none

def alarmOf (alarm : Option Nat) : ScheduleEffect J R F → Option Nat
  | .alarm (.set due) => due
  | _ => alarm

/-- What a shell keeps to obey the protocol: the asks to answer, the threads just put in
charge, which may fail to start, and the watchdog's timer. -/
structure Shell where
  asks : List (Pid × Ask)
  fresh : List (Pid × Nat)
  alarm : Option Nat

def Shell.new : Shell := ⟨[],[],none⟩

def isJudge (pid : Pid) (request : Request) : Pid × Ask → Bool
  | (owner,.judge asked _) => owner=pid && asked=request
  | _ => false

/-- The asks an input leaves: an answer takes its ask. -/
def unanswered (asks : List (Pid × Ask)) : ScheduleInput J R F → List (Pid × Ask)
  | .judged pid request _ => asks.eraseP (isJudge pid request)
  | .published pid request _ thenAbandon => asks.erase (pid,.publish request thenAbandon)
  | _ => asks

/-- The threads still to fail: failures are told before anything else. -/
def unstarted (fresh : List (Pid × Nat)) : ScheduleInput J R F → List (Pid × Nat)
  | .spawnFailed pid generation => fresh.erase (pid,generation)
  | _ => []

def Shell.after (shell : Shell) (entry : Entry J R F) : Shell where
  asks := unanswered shell.asks entry.input++entry.effects.filterMap askOf
  fresh := unstarted shell.fresh entry.input++entry.effects.filterMap spawnOf
  alarm := entry.effects.foldl alarmOf (unspent shell.alarm entry.input)

def Shell.of (log : Log J R F) : Shell := log.foldl Shell.after Shell.new

/-- The shell's protocol: markers are distinct; a thread asks for its next event while it
is the last put in charge and reads nothing; a read returns once; every ask is answered
before the next other input; a thread fails to start only when it was just put in charge. -/
def Allows (log : Log J R F) : ScheduleInput J R F → Prop
  | .push _ info _ _ _ _ => (Shell.of log).asks=[] ∧ info.marker∉(pushes log).map Prod.snd
  | .next pid generation => (Shell.of log).asks=[] ∧
      (threadsOf (history pid log)).last=some generation ∧
      ∀ j∈openJobs [] (history pid log), j.1.generation≠generation
  | .returned pid request info _ _ => (Shell.of log).asks=[] ∧
      (request,info)∈openJobs [] (history pid log)
  | .judged pid request _ => ∃ ask∈(Shell.of log).asks, isJudge pid request ask=true
  | .published pid request _ thenAbandon =>
      (pid,.publish request thenAbandon)∈(Shell.of log).asks
  | .spawnFailed pid generation => (pid,generation)∈(Shell.of log).fresh
  | _ => (Shell.of log).asks=[]

/-- The runs of a new schedule under the shell's protocol, with their log. -/
inductive Run (deadline : Nat) : Log J R F → Schedule J → Prop where
  | start : Run deadline [] (Schedule.new deadline)
  | step {log : Log J R F} {s : Schedule J} (input : ScheduleInput J R F) (now : Nat) :
      Run deadline log s → Allows log input →
      Run deadline (log++[⟨input,now,(s.step input now).2⟩]) (s.step input now).1

instance (log : Log J R F) (input : ScheduleInput J R F) : Decidable (Allows log input) :=
  match input with
  | .push _ _ _ _ _ _ => inferInstanceAs (Decidable (_ ∧ _))
  | .next _ _ => inferInstanceAs (Decidable (_ ∧ _ ∧ _))
  | .returned _ _ _ _ _ => inferInstanceAs (Decidable (_ ∧ _))
  | .judged _ _ _ => inferInstanceAs (Decidable (∃ ask∈_, _))
  | .published _ _ _ _ => inferInstanceAs (Decidable (_∈_))
  | .spawnFailed _ _ => inferInstanceAs (Decidable (_∈_))
  | .tick | .learned _ _ _ | .armed _ _ _ | .foreground _ _ | .msaaFocus _ | .outpostEnded _
  | .whenIdle _ | .stop => inferInstanceAs (Decidable (_=_))

/-- The run that the inputs given, each at its time, make after `log`, when the protocol
allows each of them. -/
def replay (log : Log J R F) (s : Schedule J) :
    List (ScheduleInput J R F × Nat) → Option (Log J R F × Schedule J)
  | [] => some (log,s)
  | (input,now)::inputs =>
      if Allows log input then
        replay (log++[⟨input,now,(s.step input now).2⟩]) (s.step input now).1 inputs
      else none

theorem replay_run {deadline : Nat} {log log' : Log J R F} {s s' : Schedule J}
    (inputs : List (ScheduleInput J R F × Nat)) (h : Run deadline log s)
    (hr : replay log s inputs=some (log',s')) : Run deadline log' s' := by
  induction inputs generalizing log s with
  | nil =>
    simp only [replay,Option.some.injEq,Prod.mk.injEq] at hr
    rw [← hr.1,← hr.2]
    exact h
  | cons next inputs ih =>
    obtain ⟨input,now⟩ := next
    simp only [replay] at hr
    split at hr
    next ha => exact ih (.step input now h ha) hr
    · cases hr

theorem history_snoc (pid : Pid) (log : Log J R F) (entry : Entry J R F) :
    history pid (log++[entry]) =
      history pid log++(entry.input.given pid++actsOf pid entry.effects) := by
  simp [history]

theorem shell_snoc (log : Log J R F) (entry : Entry J R F) :
    Shell.of (log++[entry])=(Shell.of log).after entry := by
  simp [Shell.of]

theorem pushes_snoc (log : Log J R F) (entry : Entry J R F) :
    pushes (log++[entry])=pushes log++pushes [entry] := by
  simp [pushes]

theorem queuedOf_actsOf (pid : Pid) (effects : List (ScheduleEffect J R F)) :
    queuedOf (actsOf pid effects)=[] := by
  rw [queuedOf,actsOf,filterMap_filterMap,filterMap_eq_nil_iff]
  intro effect _
  cases effect <;> simp [act]

theorem queued_count (pid : Pid) (m : Nat) (log : Log J R F) :
    ((queuedOf (history pid log)).map Meta.marker).count m=(pushes log).count (pid,m) := by
  induction log with
  | nil => rfl
  | cons entry log ih =>
    have hcons : history pid (entry::log) =
        entry.input.given pid++actsOf pid entry.effects++history pid log := rfl
    have hpush : pushes (entry::log)=pushes [entry]++pushes log := by
      cases hin : entry.input <;> simp [pushes,hin]
    rw [hcons,queuedOf_append,queuedOf_append,queuedOf_actsOf,append_nil,
      map_append,count_append,ih,hpush,count_append]
    congr 1
    cases hin : entry.input with
    | push owner info job kind key window =>
      by_cases howner : owner=pid <;> simp [given,queuedOf,pushes,hin,howner,count_cons]
    | returned owner request info judged top =>
      by_cases howner : owner=pid <;> simp [given,queuedOf,pushes,hin,howner]
    | _ => simp [given,queuedOf,pushes,hin]

theorem outcome_act_count (pid : Pid) (m : Nat) (effect : ScheduleEffect J R F) :
    ((outcomesOf (effect.act pid).toList).map Meta.marker).count m =
      (outcomeOf effect).toList.count (pid,m) := by
  cases effect with
  | outcome owner info judged =>
    by_cases howner : owner=pid <;> simp [act,howner,outcomesOf,outcomeOf,count_cons]
  | spawn owner generation reuse | unwatch owner | forget owner =>
    by_cases howner : owner=pid <;> simp [act,howner,outcomesOf,outcomeOf]
  | job work =>
    by_cases howner : work.pid=pid <;> simp [act,howner,outcomesOf,outcomeOf]
  | _ => rfl

theorem outcome_effects_count (pid : Pid) (m : Nat) (effects : List (ScheduleEffect J R F)) :
    ((outcomesOf (actsOf pid effects)).map Meta.marker).count m =
      (effects.filterMap outcomeOf).count (pid,m) := by
  induction effects with
  | nil => rfl
  | cons effect effects ih =>
    have hcons : (effect::effects).filterMap outcomeOf =
        (outcomeOf effect).toList++effects.filterMap outcomeOf := by
      cases h : outcomeOf effect <;> simp [h]
    rw [actsOf_cons,outcomesOf_append,map_append,count_append,ih,hcons,
      count_append,outcome_act_count]

theorem outcome_count (pid : Pid) (m : Nat) (log : Log J R F) :
    ((outcomesOf (history pid log)).map Meta.marker).count m=(outcomes log).count (pid,m) := by
  induction log with
  | nil => rfl
  | cons entry log ih =>
    have hgiven : outcomesOf (entry.input.given pid)=[] := by
      cases entry.input with
      | push owner info job kind key window | returned owner request info judged top =>
        simp only [given]
        split <;> rfl
      | _ => rfl
    have hcons : history pid (entry::log) =
        entry.input.given pid++actsOf pid entry.effects++history pid log := rfl
    have hout : outcomes (entry::log)=entry.effects.filterMap outcomeOf++outcomes log := rfl
    rw [hcons,outcomesOf_append,outcomesOf_append,hgiven,nil_append,map_append,
      count_append,ih,hout,count_append,outcome_effects_count]

theorem mem_spawns_iff (pid : Pid) (g : Nat) (effects : List (ScheduleEffect J R F)) :
    (pid,g)∈effects.filterMap spawnOf ↔ .spawn g∈actsOf pid effects := by
  simp only [actsOf,mem_filterMap]
  constructor
  · rintro ⟨effect,hm,heq⟩
    cases effect with
    | spawn owner generation reuse =>
      simp only [spawnOf,Option.some.injEq,Prod.mk.injEq] at heq
      exact ⟨_,hm,by simp [act,heq.1,heq.2]⟩
    | _ => simp [spawnOf] at heq
  · rintro ⟨effect,hm,heq⟩
    cases effect with
    | spawn owner generation reuse =>
      simp only [act] at heq
      split at heq
      next howner => exact ⟨_,hm,by simpa [spawnOf,howner] using heq⟩
      · cases heq
    | _ =>
      simp only [act] at heq
      first
        | cases heq
        | (split at heq <;> cases heq)

end Verbatim.Listener
