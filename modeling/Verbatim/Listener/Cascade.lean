import Verbatim.Listener.Alarm

namespace Verbatim.Listener

open Framework ReaderRules List Schedule Shell Option Prod Nat

variable {J R F : Type}

/-- What a tick's judgements at `now` leave of an application: nothing due, or its read
asked to publish, and no event waiting past its bound. -/
structure AppCalm (now deadline : Nat) (asks : List (Pid × Ask)) (pid : Pid) (app : App J) :
    Prop where
  flight : app.flight.Calm now ∨ ∃ running thenAbandon,
    app.flight.running=some running ∧ (pid,.publish running.request thenAbandon)∈asks
  waiting : ∀ t, app.waitingEnd deadline=some t → now<t

section Apps

variable {now deadline : Nat} {asks asks' : List (Pid × Ask)} {pid : Pid} {app : App J}

theorem AppCalm.of_asks (h : AppCalm now deadline asks pid app)
    (ha : ∀ request thenAbandon, (pid,.publish request thenAbandon)∈asks →
      (∃ running, app.flight.running=some running ∧ running.request=request) →
      (pid,.publish request thenAbandon)∈asks') : AppCalm now deadline asks' pid app := by
  refine ⟨?_,h.waiting⟩
  rcases h.flight with hc | ⟨running,thenAbandon,hr,hm⟩
  · exact Or.inl hc
  · exact Or.inr ⟨running,thenAbandon,hr,ha _ _ hm ⟨running,hr,rfl⟩⟩

theorem AppCalm.mono (h : AppCalm now deadline asks pid app) (ha : asks⊆asks') :
    AppCalm now deadline asks' pid app :=
  h.of_asks fun _ _ hm _ => ha hm

theorem waitingEnd_threaded (h : app.threaded=true) (deadline : Nat) :
    app.waitingEnd deadline=none := by
  simp [App.waitingEnd,h]

theorem waitingEnd_nil (h : app.queue=[]) (deadline : Nat) : app.waitingEnd deadline=none := by
  simp [App.waitingEnd,h]

end Apps

variable {pid q : Pid}

theorem start_other (s : Schedule J) (hq : q≠pid) (reuse : Bool) :
    (@start J R F s pid reuse).1.apps[q]?=s.apps[q]? := by
  unfold start
  split
  · rfl
  · exact setApp_ne s hq _

theorem abandon_other (s : Schedule J) (now : Nat) (hq : q≠pid) (abandoned : Abandoned Reading) :
    (@abandon J R F s now pid abandoned).1.apps[q]?=s.apps[q]? := by
  cases h : s.apps[pid]? with
  | none => simp [abandon,h]
  | some app =>
    rw [abandon_eq now app app.flight h]
    split
    · exact (start_other _ hq false).trans (setApp_ne s hq _)
    · exact setApp_ne s hq _

theorem decided_other (s : Schedule J) (now : Nat) (hq : q≠pid) (decision : Decision Reading) :
    (@decided J R F s now pid decision).1.apps[q]?=s.apps[q]? := by
  unfold decided
  split
  · rfl
  · rfl
  · rfl
  · rfl
  · exact abandon_other s now hq _

variable {s : Schedule J} {pid : Pid}

theorem start_apps {app app' : App J} {reuse : Bool} (h : s.apps[pid]?=some app)
    (h' : (@start J R F s pid reuse).1.apps[pid]?=some app') :
    app'.threaded=true ∧ app'.flight.running=app.flight.running := by
  rw [start_eq h,setApp_self] at h'
  cases h'
  exact ⟨rfl,rfl⟩

variable {now : Nat} {app : App J}

/-- An abandonment below the limit leaves nothing under way, and at the limit a bound
later than `now`. -/
theorem abandon_calm (asks : List (Pid × Ask)) (h : s.apps[pid]?=some app)
    (hlimit : app.limitReached=none) (hrun : app.flight.running=none) (hnow : now<u64Max)
    (hdead : 0<s.deadline) (abandoned : Abandoned Reading) {app' : App J}
    (h' : (@abandon J R F s now pid abandoned).1.apps[pid]?=some app') :
    AppCalm now s.deadline asks pid app' := by
  rw [abandon_eq now app app.flight h] at h'
  dsimp only [wakeIdleWaiters] at h'
  split at h'
  · obtain ⟨ht,hr⟩ := start_apps (setApp_self s pid _) h'
    refine ⟨Or.inl (InFlight.calm_of_none (hr.trans hrun) now),?_⟩
    simp [waitingEnd_threaded ht]
  rw [setApp_self] at h'
  cases h'
  refine ⟨Or.inl (InFlight.calm_of_none hrun now),?_⟩
  intro t ht
  have hlater := lt_satAdd now s.deadline hnow hdead
  simp only [App.waitingEnd,abandonedApp,hlimit] at ht
  split at ht
  · cases ht
  split at ht
  · simp only [map_some,some.injEq] at ht
    exact ht ▸ hlater
  · cases ht

theorem decided_calm (app : App J) {decision : Decision Reading} (h : s.apps[pid]?=some app)
    (ht : app.threaded=true) (hlimit : app.limitReached=none) (hl : app.flight.Leaves now decision)
    (hnone : ∀ abandoned, decision=.abandon abandoned → app.flight.running=none) (hnow : now<u64Max)
    (hdead : 0<s.deadline) {app' : App J}
    (h' : (@decided J R F s now pid decision).1.apps[pid]?=some app') :
    AppCalm now s.deadline
      ((@decided J R F s now pid decision).2.filterMap askOf) pid app' := by
  have hwaiting : ∀ t, app.waitingEnd s.deadline=some t → now<t := by
    simp [waitingEnd_threaded ht]
  cases decision with
  | nothing =>
    cases h.symm.trans h'
    exact ⟨Or.inl hl,hwaiting⟩
  | ask ask =>
    cases ask with
    | judge request window =>
      have hsame : s.apps[pid]?=some app' := by cases window <;> exact h'
      cases h.symm.trans hsame
      exact ⟨Or.inl hl,hwaiting⟩
    | publish request thenAbandon =>
      cases h.symm.trans h'
      obtain ⟨running,hr,hreq⟩ := hl
      refine ⟨Or.inr ⟨running,thenAbandon,hr,?_⟩,hwaiting⟩
      rw [hreq]
      exact mem_singleton.mpr rfl
  | abandon abandoned =>
    exact abandon_calm _ h hlimit (hnone abandoned rfl) hnow hdead abandoned h'

theorem below_of_running (hs : app.desk.Sound)
    (hr : app.flight.running.isSome) : app.threaded=true ∧ app.limitReached=none := by
  have ht : app.threaded=true := hs.threaded (by simpa [App.desk,InFlight.underWay] using hr)
  refine ⟨ht,?_⟩
  have hbelow : app.abandoned<abandonedLimit := hs.below ht
  have hlimit : app.limitReached.isSome ↔ app.abandoned=abandonedLimit := hs.limited
  cases hl : app.limitReached with
  | none => rfl
  | some reached =>
    have := hlimit.mp (by simp [hl])
    omega

theorem decides_abandon_none {f f' : InFlight Reading} {decision : Decision Reading}
    (h : f.Decides f' decision) : ∀ abandoned, decision=.abandon abandoned → f'.running=none := by
  rintro abandoned rfl
  obtain ⟨running,-,hnone,-⟩ := h
  exact hnone

theorem dropWaiting_other (s : Schedule J) (hq : q≠pid) :
    (@dropWaiting J R F s pid).1.apps[q]?=s.apps[q]? := by
  unfold dropWaiting
  split
  · rfl
  split
  · rfl
  · exact setApp_ne s hq _

theorem tickApp_other (s : Schedule J) (now : Nat) (hq : q≠pid) :
    (@tickApp J R F s now pid).1.apps[q]?=s.apps[q]? := by
  unfold tickApp
  split
  · rfl
  split
  · exact (decided_other _ now hq _).trans (setApp_ne s hq _)
  split
  · exact dropWaiting_other s hq
  · rfl

theorem tickApp_calm (hs : (s.desk pid).Sound) (hnow : now<u64Max) (hdead : 0<s.deadline)
    {app' : App J} (h' : (@tickApp J R F s now pid).1.apps[pid]?=some app') :
    AppCalm now s.deadline ((@tickApp J R F s now pid).2.filterMap askOf) pid app' := by
  cases h : s.apps[pid]? with
  | none => simp [tickApp,h] at h'
  | some app =>
    rw [desk_of_some h] at hs
    cases hr : app.flight.running with
    | some running =>
      have hrun : app.flight.running.isSome=true := by simp [hr]
      have htick : @tickApp J R F s now pid =
          (s.setApp pid {app with flight := (app.flight.judge now).1}).decided now pid
            (app.flight.judge now).2 := by
        simp only [tickApp,h,hrun,if_true]
        rfl
      obtain ⟨ht,hlimit⟩ := below_of_running hs hrun
      rw [htick] at h' ⊢
      exact decided_calm {app with flight := (app.flight.judge now).1}
        (setApp_self s pid _) ht hlimit
        (app.flight.judge_leaves now hnow)
        (decides_abandon_none (app.flight.judge_decides now)) hnow hdead h'
    | none =>
      have hcalm : app.flight.Calm now := InFlight.calm_of_none hr now
      by_cases hpast : (app.waitingEnd s.deadline).any (fun ending => ending≤now)=true
      · have htick : @tickApp J R F s now pid=s.dropWaiting pid := by
          simp [tickApp,h,hr,hpast]
        obtain ⟨ht,hq⟩ : app.threaded=false ∧ app.queue≠[] := by
          constructor
          · cases hth : app.threaded with
            | false => rfl
            | true => simp [waitingEnd_threaded hth] at hpast
          · intro hnil
            simp [waitingEnd_nil hnil] at hpast
        rw [htick,dropWaiting_eq h ht hq] at h'
        have happ' : some {app with queue := []}=some app' := (setApp_self s pid _).symm.trans h'
        cases happ'
        refine ⟨Or.inl hcalm,?_⟩
        simp [waitingEnd_nil]
      · have htick : @tickApp J R F s now pid=(s,[]) := by
          simp [tickApp,h,hr,hpast]
        rw [htick] at h'
        cases h.symm.trans h'
        refine ⟨Or.inl hcalm,?_⟩
        intro t ht
        simpa [ht] using hpast

theorem tickAll_calm (now : Nat) (hnow : now<u64Max) (pids : List Pid) (hnd : pids.Nodup)
    (s : Schedule J) (hs : ∀ q, (s.desk q).Sound) (hdead : 0<s.deadline) :
    (∀ q∈pids, ∀ app',
      (@tickAll J R F now pids s).1.apps[q]?=some app' →
      AppCalm now s.deadline ((@tickAll J R F now pids s).2.filterMap askOf) q app') ∧
    ∀ q, q∉pids → (@tickAll J R F now pids s).1.apps[q]?=s.apps[q]? := by
  induction pids generalizing s with
  | nil => exact ⟨fun q hq => absurd hq not_mem_nil,fun _ _ => rfl⟩
  | cons pid pids ih =>
    obtain ⟨hnot,hrest⟩ := nodup_cons.mp hnd
    have hlocal := @tickApp_local J R F s now pid (hs pid)
    have hdeadline : (s.tickApp now pid).1.deadline=s.deadline :=
      congrArg (·.2.1) hlocal.fixed
    have hsound : ∀ q, ((@tickApp J R F s now pid).1.desk q).Sound := by
      intro q
      exact chain_sound (hs q) ((hlocal.handles (fun _ => []) rfl fun _ _ => rfl).chain q)
    obtain ⟨hcalm,hother⟩ := ih hrest _ hsound (by rw [hdeadline]; exact hdead)
    rw [hdeadline] at hcalm
    have hasks : (tickAll now (pid::pids) s).2.filterMap askOf =
        (s.tickApp now pid).2.filterMap askOf ++
        (tickAll now pids
          (@tickApp J R F s now pid).1).2.filterMap askOf := filterMap_append
    constructor
    · intro q hq app' happ'
      rw [hasks]
      rcases mem_cons.mp hq with rfl | hq
      · have hkeep := (hother q hnot).symm.trans happ'
        exact (tickApp_calm (hs q) hnow hdead hkeep).mono (subset_append_left _ _)
      · exact (hcalm q hq app' happ').mono (subset_append_right _ _)
    · intro q hq
      rw [mem_cons,not_or] at hq
      exact (hother q hq.2).trans (tickApp_other s now hq.1)

section Answers

/-- The shell's answers to what a tick leads to: its asks', and threads that fail to start. -/
def isAnswer : ScheduleInput J R F → Bool
  | .judged _ _ _ | .published _ _ _ _ | .spawnFailed _ _ => true
  | _ => false

/-- Every application of `s` is calm at `now`, but for the asks not answered yet. -/
def Calming (now : Nat) (asks : List (Pid × Ask)) (s : Schedule J) : Prop :=
  ∀ (q : Pid) (app : App J), s.apps[q]?=some app → AppCalm now s.deadline asks q app

theorem step_apps (s : Schedule J) (input : ScheduleInput J R F) (now : Nat) :
    (s.step input now).1.apps=(s.handle input now).1.apps ∧
      (s.step input now).1.deadline=(s.handle input now).1.deadline ∧
      (s.step input now).2.filterMap askOf=(s.handle input now).2.filterMap askOf := by
  have halarm : ((s.handle input now).1.setAlarm (R := R) (F := F)).2.filterMap askOf=[] := by
    unfold setAlarm
    split
    · rfl
    · split <;> rfl
  refine ⟨(setAlarm_apps _).1,(setAlarm_apps _).2.2,?_⟩
  change ((s.handle input now).2++(s.handle input now).1.setAlarm.2).filterMap askOf=_
  rw [filterMap_append,halarm,append_nil]

theorem handle_tick (now : Nat) (hstop : s.stopping=false) :
    @handle J R F s .tick now=tickAll now s.apps.keys {s with alarmDue := none} := by
  simp [handle,tick,hstop]

theorem tick_asks {log : Log J R F} (ha : Allows log (.tick : ScheduleInput J R F)) :
    (of (log++[⟨.tick,now,(s.step .tick now).2⟩])).asks =
      (@step J R F s .tick now).2.filterMap askOf := by
  rw [shell_snoc]
  change (of log).asks++_=_
  rw [show (of log).asks=[] from ha,nil_append]

theorem tick_calming (hstop : s.stopping=false)
    (hs : ∀ q, (s.desk q).Sound) (hnow : now<u64Max) (hdead : 0<s.deadline) :
    Calming now ((@step J R F s .tick now).2.filterMap askOf)
      (@step J R F s .tick now).1 := by
  obtain ⟨happs,hdeadline,hasks⟩ := step_apps s .tick now
  have htick := handle_tick (R := R) (F := F) now hstop
  have hnd : s.apps.keys.Nodup := Std.ExtTreeMap.distinct_keys.imp (by simp)
  obtain ⟨hcalm,hother⟩ := tickAll_calm now hnow s.apps.keys hnd {s with alarmDue := none} hs hdead
  have hsteps := (@tickAll_steps J R F now s.apps.keys hnd
    {s with alarmDue := none} hs).1
  intro q app happ
  rw [happs,htick] at happ
  rw [hdeadline,hasks,htick,hsteps.deadline]
  by_cases hq : q∈s.apps.keys
  · exact hcalm q hq app happ
  rw [hother q hq] at happ
  have hmem : q∈s.apps := Std.ExtTreeMap.mem_iff_isSome_getElem?.mpr
    (isSome_iff_exists.mpr ⟨app,happ⟩)
  exact absurd (Std.ExtTreeMap.mem_keys.mpr hmem) hq

variable {now : Nat} {asks : List (Pid × Ask)} {s : Schedule J}

theorem wakeIdleWaiters_asks (s : Schedule J) :
    (@wakeIdleWaiters J R F s).2.filterMap askOf=[] := by
  simp [wakeIdleWaiters,filterMap_map,Function.comp_def,askOf]

theorem published_eq (now : Nat) (request : Request)
    (read : Option R) (thenAbandon : Option Reason) (h : s.apps[pid]?=some app) :
    ∃ (got : Bool) (t : Schedule J) (es : List (ScheduleEffect J R F)),
      s.published now pid request read thenAbandon=((@decided J R F t now pid
            (app.flight.published request got thenAbandon now).2).1,
          es++(t.decided now pid (app.flight.published request got thenAbandon now).2).2) ∧
      t.apps=(s.setApp pid
        {app with flight := (app.flight.published request got thenAbandon now).1}).apps ∧
      t.deadline=s.deadline ∧ es.filterMap askOf=[] := by
  simp only [published,h]
  refine ⟨_,_,_,rfl,?_,?_,?_⟩
  · split <;> rfl
  · split <;> rfl
  · rw [filterMap_append]
    split <;> split <;> simp [askOf,wakeIdleWaiters_asks]

/-- What an answer leaves: every application is calm but for the asks left and those it leads to. -/
def Calmed (now deadline : Nat) (asks : List (Pid × Ask))
    (r : Handled J R F) : Prop :=
  ∀ (q : Pid) (app : App J), r.1.apps[q]?=some app →
    AppCalm now deadline (asks++r.2.filterMap askOf) q app

section Answered

variable (hc : Calming now asks s) (hs : ∀ q, (s.desk q).Sound) (hnow : now<u64Max)
  (hdead : 0<s.deadline)

include hc hs hnow hdead

/-- An answer leaves `pid`'s item as it was, calm but for the asks left, or decides on it. -/
theorem flown_calming (h : s.apps[pid]?=some app) {flight : InFlight Reading}
    {decision : Decision Reading} {t : Schedule J} {asks' : List (Pid × Ask)}
    (htapps : t.apps=(s.setApp pid {app with flight}).apps) (htdead : t.deadline=s.deadline)
    (hkeep : ∀ q≠pid, ∀ app : App J, AppCalm now s.deadline asks q app →
      AppCalm now s.deadline asks' q app)
    (hown : flight=app.flight ∧ decision=.nothing ∧ AppCalm now s.deadline asks' pid app ∨
      app.flight.running.isSome=true ∧ flight.Leaves now decision ∧
        ∀ abandoned, decision=.abandon abandoned → flight.running=none) :
    Calmed now s.deadline asks' (@decided J R F t now pid decision) := by
  intro q app' happ'
  by_cases hq : q=pid
  · subst hq
    have ht' : t.apps[q]?=some {app with flight} := by
      rw [htapps]
      exact setApp_self s q _
    obtain ⟨rfl,rfl,hcalm⟩ | ⟨hrun,hleaves,hnone⟩ := hown
    · cases ht'.symm.trans happ'
      exact hcalm.mono (subset_append_left _ _)
    · have hsound := hs q
      rw [desk_of_some h] at hsound
      obtain ⟨ht,hlimit⟩ := below_of_running hsound hrun
      have hcalm := decided_calm _ ht' ht hlimit hleaves hnone hnow (by rwa [htdead]) happ'
      rw [htdead] at hcalm
      exact hcalm.mono (subset_append_right _ _)
  · rw [decided_other _ now hq,htapps,setApp_ne s hq] at happ'
    exact (hkeep q hq app' (hc q app' happ')).mono (subset_append_left _ _)

theorem judged_calming (pid : Pid) (request : Request) (verdict : Option Reason) :
    Calmed now s.deadline (asks.eraseP (isJudge pid request))
      (@judged J R F s now pid request verdict) := by
  have hkeep {q : Pid} {app : App J} (hcalm : AppCalm now s.deadline asks q app) :
      AppCalm now s.deadline (asks.eraseP (isJudge pid request)) q app :=
    hcalm.of_asks fun request' thenAbandon hm _ => (mem_eraseP_of_neg (by simp [isJudge])).mpr hm
  cases h : s.apps[pid]? with
  | none =>
    have hr : @judged J R F s now pid request verdict=(s,[]) := by simp [judged,h]
    rw [hr]
    exact fun q app' happ' => (hkeep (hc q app' happ')).mono (subset_append_left _ _)
  | some app =>
    simp only [judged,h]
    refine flown_calming hc hs hnow hdead h rfl rfl (fun q _ app => hkeep) ?_
    have hcalm := hkeep (hc pid app h)
    cases hof : app.flight.runningOf request with
    | none => exact .inl (by simpa [InFlight.judged,hof] using hcalm)
    | some running =>
      cases verdict with
      | none => exact .inl (by simpa [InFlight.judged,hof] using hcalm)
      | some reason =>
        exact .inr ⟨by simp [(InFlight.runningOf_eq_some.mp hof).1],
          InFlight.judged_leaves now hof reason,
          decides_abandon_none (app.flight.judged_decides request (some reason))⟩

theorem published_calming (pid : Pid) (request : Request) (read : Option R)
    (thenAbandon : Option Reason) :
    Calmed now s.deadline (asks.erase (pid,.publish request thenAbandon))
      (s.published (F := F) now pid request read thenAbandon) := by
  intro q app' happ'
  have hkeep (q : Pid) (hq : q≠pid) (app : App J) (hcalm : AppCalm now s.deadline asks q app) :
      AppCalm now s.deadline (asks.erase (pid,.publish request thenAbandon)) q app :=
    hcalm.of_asks fun request' later hm _ => (mem_erase_of_ne (by simp [hq])).mpr hm
  cases h : s.apps[pid]? with
  | none =>
    simp only [published,h] at happ' ⊢
    have hq : q≠pid := by
      rintro rfl
      cases h.symm.trans happ'
    exact (hkeep q hq app' (hc q app' happ')).mono (subset_append_left _ _)
  | some app =>
    obtain ⟨got,t,es,hr,htapps,htdead,hes⟩ := published_eq now request read thenAbandon h
    rw [hr] at happ' ⊢
    rw [filterMap_append,hes,nil_append]
    refine flown_calming hc hs hnow hdead h htapps htdead hkeep ?_ q app' happ'
    cases hof : app.flight.runningOf request with
    | none =>
      have hsame : app.flight.published request got thenAbandon now=(app.flight,.nothing) := by
        simp [InFlight.published,InFlight.publication,hof]
      rw [hsame]
      refine .inl ⟨rfl,rfl,(hc pid app h).of_asks fun request' later hm hasked =>
        (mem_erase_of_ne ?_).mpr hm⟩
      obtain ⟨running,hrun,hreq⟩ := hasked
      intro heq
      simp only [Prod.mk.injEq,true_and,Ask.publish.injEq] at heq
      have hruns := InFlight.runningOf_eq_some.mpr ⟨hrun,hreq.trans heq.1⟩
      rw [hof] at hruns
      cases hruns
    | some running =>
      exact .inr ⟨by simp [(InFlight.runningOf_eq_some.mp hof).1],
        InFlight.published_leaves now hnow hof got thenAbandon,
        decides_abandon_none (app.flight.published_decides request got thenAbandon now)⟩

end Answered

theorem spawnFailed_calming (hc : Calming now asks s) (pid : Pid) (generation : Nat) :
    Calmed now s.deadline asks (@spawnFailed J R F s pid generation) := by
  generalize hr : @spawnFailed J R F s pid generation=r
  intro q app' happ'
  have hsame : s.apps[q]?=some app' →
      AppCalm now s.deadline (asks++r.2.filterMap askOf) q app' := fun happ =>
    (hc q app' happ).mono (subset_append_left _ _)
  cases h : s.apps[pid]? with
  | none =>
    rw [← hr] at happ'
    simp only [spawnFailed,h] at happ'
    exact hsame happ'
  | some app =>
    cases hcharge : app.inCharge generation with
    | false =>
      rw [← hr] at happ'
      simp only [spawnFailed,h,hcharge] at happ'
      exact hsame happ'
    | true =>
      have hr : r.1.apps=(@letGoFailed J R F s pid app).1.apps := by
        rw [← hr,spawnFailed_eq h hcharge]
        rfl
      rw [hr] at happ'
      unfold letGoFailed at happ'
      by_cases hq : q=pid
      · subst hq
        split at happ'
        · simp [letGo] at happ'
        have happ : some (failedApp app)=some app' := (setApp_self s q _).symm.trans happ'
        cases happ
        refine ⟨?_,by simp [waitingEnd_nil,failedApp]⟩
        exact ((hc q app h).mono (subset_append_left _ _)).flight
      · split at happ'
        · simp only [letGo,Std.ExtTreeMap.getElem?_erase] at happ'
          split at happ'
          · cases happ'
          · exact hsame ((setApp_ne s hq _).symm.trans happ')
        · exact hsame ((setApp_ne s hq _).symm.trans happ')

variable {deadline : Nat} {log : Log J R F} {input : ScheduleInput J R F}

/-- Each answer leaves every application calm but for the asks still to be answered. -/
theorem answer_calming (h : Run deadline log s) (hc : Calming now (of log).asks s)
    (hnow : now<u64Max) (hdead : 0<deadline) (hans : isAnswer input=true) (ha : Allows log input) :
    Calming now (of (log++[⟨input,now,(s.step input now).2⟩])).asks (s.step input now).1 := by
  have hkept := run_kept h
  have hsteps := hkept.steps now ha
  have hdead' : 0<s.deadline := by rw [hkept.deadline]; exact hdead
  obtain ⟨happs,-,hasks⟩ := step_apps s input now
  intro q app' happ'
  rw [shell_snoc]
  change AppCalm now (s.step input now).1.deadline
    (unanswered (of log).asks input++(s.step input now).2.filterMap askOf) q app'
  rw [hsteps.deadline,hasks]
  rw [happs] at happ'
  cases input with
  | judged pid request verdict =>
    exact judged_calming hc hkept.sound hnow hdead' pid request verdict q app' happ'
  | published pid request read thenAbandon =>
    exact published_calming hc hkept.sound hnow hdead' pid request read thenAbandon q app' happ'
  | spawnFailed pid generation => exact spawnFailed_calming hc pid generation q app' happ'
  | _ => cases hans

theorem answer_stopping (h : Run deadline log s) (hans : isAnswer input=true)
    (ha : Allows log input) (hstop : s.stopping=false) : (s.step input now).1.stopping=false := by
  rw [((run_kept h).steps now ha).stopping,hstop]
  cases input <;> first | rfl | cases hans

variable {log' : Log J R F} {s' : Schedule J}

theorem answers_calming (h : Run deadline log s) (hstop : s.stopping=false)
    (hc : Calming now (of log).asks s) (hnow : now<u64Max) (hdead : 0<deadline)
    (answers : List (ScheduleInput J R F)) (hans : ∀ a∈answers, isAnswer a=true)
    (hr : replay log s (answers.map (·,now))=some (log',s')) :
    Run deadline log' s' ∧ s'.stopping=false ∧ Calming now (of log').asks s' := by
  induction answers generalizing log s with
  | nil =>
    cases hr
    exact ⟨h,hstop,hc⟩
  | cons input answers ih =>
    simp only [map_cons,replay] at hr
    split at hr
    next ha =>
      have hinput := hans input mem_cons_self
      exact ih (.step input now h ha) (answer_stopping h hinput ha hstop)
        (answer_calming h hc hnow hdead hinput ha)
        (fun a hm => hans a (mem_cons_of_mem _ hm)) hr
    · cases hr

/-- A tick at `now` and answers at `now` leave every application calm but for the asks
still to be answered. -/
theorem cascade_calming (h : Run deadline log s)
    (hstop : s.stopping=false) (hnow : now<u64Max) (hdead : 0<deadline)
    (answers : List (ScheduleInput J R F)) (hans : ∀ a∈answers, isAnswer a=true)
    (hr : replay log s ((.tick,now)::answers.map (·,now))=some (log',s')) :
    Run deadline log' s' ∧ s'.stopping=false ∧ Calming now (of log').asks s' := by
  have hkept := run_kept h
  simp only [replay] at hr
  split at hr
  next ha =>
    have hcalm := tick_calming (R := R) (F := F) hstop hkept.sound hnow
      (by rw [hkept.deadline]; exact hdead)
    exact answers_calming (.step .tick now h ha) ((hkept.steps now ha).stopping.trans hstop)
      (by rw [tick_asks ha]; exact hcalm) hnow hdead answers hans hr
  · cases hr

end Answers

def armedRead : List (ScheduleInput Unit Unit Unit × Nat) :=
  [(.push 7 ⟨1,.focus,0⟩ () .focus none .unknown,5),(.next 7 1,6),(.armed 7 ⟨1,1⟩ 1000,8)]

end Verbatim.Listener
