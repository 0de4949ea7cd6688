import Verbatim.Listener.Shell
import Mathlib.Data.List.Nodup

namespace Verbatim.Listener

open Framework ReaderRules List Schedule ScheduleEffect Option

variable {J R F : Type}

/-- What holds after every run: the log is a run of moves of each desk, each read that
returned was handed out, a thread that may fail to start reads nothing, and until the
stop no event waits without a thread below the limit. -/
structure Kept (deadline : Nat) (log : Log J R F) (s : Schedule J) : Prop where
  chain : ∀ q, Chain Move Desk.new (history q log) (s.desk q)
  returns : ∀ q, ReturnsOpen [] (history q log)
  fresh : ∀ q g, (q,g)∈(Shell.of log).fresh → (s.desk q).generation=g → (s.desk q).reading=none
  settled : s.stopping=false → ∀ q, (s.desk q).Settled
  deadline : s.deadline=deadline

namespace Kept

variable {deadline : Nat} {log : Log J R F} {s : Schedule J}

section

variable (h : Kept deadline log s)

include h

theorem sound (q : Pid) : (s.desk q).Sound := chain_sound sound_new (h.chain q)

theorem holds (q : Pid) : (s.desk q).Holds (openJobs [] (history q log)) :=
  chain_holds sound_new holds_new (h.chain q) (h.returns q)

theorem leads (q : Pid) : (s.desk q).Leads (threadsOf (history q log)) :=
  chain_leads sound_new leads_new (h.chain q)

theorem fits {input : ScheduleInput J R F} (ha : Allows log input) :
    Fits s (fun q => openJobs [] (history q log)) input := by
  cases input with
  | next pid generation => exact ha.2.2
  | returned pid request info judged top => exact ha.2
  | spawnFailed pid generation => exact h.fresh pid generation ha
  | _ => trivial

theorem steps {input : ScheduleInput J R F} (now : Nat)
    (ha : Allows log input) :
    Steps (fun q => input.given q) (input.stops || s.stopping) s (s.step input now) :=
  step_steps s input now h.sound h.holds (h.fits ha)

end

end Kept

theorem spawnFailed_reading (s : Schedule J) (pid : Pid) (generation now : Nat) (q : Pid)
    (hnew : (s.desk pid).generation=generation → (s.desk pid).reading=none) :
    (@step J R F s (.spawnFailed pid generation) now).1.desk q=s.desk q ∨
      ((@step J R F s (.spawnFailed pid generation) now).1.desk q).reading=none := by
  have hdesk : (s.step (.spawnFailed pid generation) now).1.desk q =
      (s.spawnFailed pid generation).1.desk q :=
    desk_congr (@setAlarm_apps J R F _).1 q
  rw [hdesk]
  cases h : s.apps[pid]? with
  | none => exact Or.inl (by simp [spawnFailed,h])
  | some app =>
    cases hc : app.inCharge generation with
    | false => exact Or.inl (by simp [spawnFailed,h,hc])
    | true =>
      have hgen := App.generation_of_inCharge hc
      rw [desk_of_some h] at hnew
      rw [spawnFailed_eq h hc,desk_wakeIdleWaiters]
      by_cases hq : q=pid
      · rw [hq]
        rcases letGoFailed_desk s pid app with hd | hd
        · exact Or.inr (by rw [hd]; exact hnew hgen)
        · exact Or.inr (by rw [hd]; rfl)
      · exact Or.inl (letGoFailed_frame s pid app hq).1

theorem fresh_after (log : Log J R F) (s : Schedule J) (input : ScheduleInput J R F)
    (now : Nat) (hfresh : ∀ q g, (q,g)∈(Shell.of log).fresh →
      (s.desk q).generation=g → (s.desk q).reading=none)
    (ha : Allows log input)
    (hspawns : ∀ q, SpawnsLast (s.desk q) (actsOf q (s.step input now).2)
      ((s.step input now).1.desk q)) (q : Pid) (g : Nat)
    (hm : (q,g)∈(Shell.of (log++[⟨input,now,(s.step input now).2⟩])).fresh)
    (hg : ((s.step input now).1.desk q).generation=g) :
    ((s.step input now).1.desk q).reading=none := by
  rw [shell_snoc] at hm
  rcases mem_append.mp hm with hold | hnew
  · cases input with
    | spawnFailed pid generation =>
      have hbefore : (q,g)∈(Shell.of log).fresh := mem_of_mem_erase hold
      rcases spawnFailed_reading s pid generation now q (hfresh _ _ ha) with
        hsame | hnone
      · rw [hsame] at hg ⊢
        exact hfresh q g hbefore hg
      · exact hnone
    | _ => simp [unstarted] at hold
  · obtain ⟨before,-,-,-,-,-,-,hreading,-⟩ := hspawns q g ((mem_spawns_iff q g _).mp hnew)
    exact hreading

theorem returnsOpen_effects (jobs : List (Request × Meta)) (pid : Pid)
    (effects : List (ScheduleEffect J R F)) : ReturnsOpen jobs (actsOf pid effects) := by
  induction effects generalizing jobs with
  | nil => trivial
  | cons effect effects ih =>
    rw [actsOf_cons,returnsOpen_append]
    refine ⟨?_,ih _⟩
    cases effect with
    | outcome | spawn | unwatch | forget | job =>
      simp only [act]
      split <;> trivial
    | _ => trivial

theorem returnsOpen_given (log : Log J R F) (input : ScheduleInput J R F)
    (ha : Allows log input) (q : Pid) :
    ReturnsOpen (openJobs [] (history q log)) (input.given q) := by
  cases input with
  | push pid info job kind key window =>
    simp only [ScheduleInput.given]
    split <;> trivial
  | returned pid request info judged top =>
    simp only [ScheduleInput.given]
    split
    next howner =>
      rw [← howner]
      exact ⟨ha.2,trivial⟩
    · trivial
  | _ => trivial

variable {log : Log J R F} {s : Schedule J}

theorem run_kept {deadline : Nat} (h : Run deadline log s) : Kept deadline log s := by
  induction h with
  | start =>
    refine ⟨fun q => ?_,fun _ => trivial,
      fun _ _ hm => absurd hm (by simp [Shell.of,Shell.new]),fun _ q => ?_,rfl⟩
    · exact .refl
    · exact settled_new
  | step input now hrun ha ih =>
    have hsteps := ih.steps now ha
    refine ⟨fun q => ?_,fun q => ?_,
      fresh_after _ _ input now ih.fresh ha hsteps.spawns,fun hst q => ?_,
      hsteps.deadline.trans ih.deadline⟩
    · rw [history_snoc]
      exact (ih.chain q).trans (hsteps.chain q)
    · rw [history_snoc,returnsOpen_append,returnsOpen_append]
      exact ⟨ih.returns q,returnsOpen_given _ input ha q,returnsOpen_effects _ q _⟩
    · refine hsteps.settles q hst (ih.settled ?_ q)
      exact (Bool.or_eq_false_iff.mp (hsteps.stopping.symm.trans hst)).2

def waitingMarkers (s : Schedule J) (pid : Pid) : List Nat :=
  (s.apps[pid]?).elim [] fun app => app.queue.map (·.info.marker)

def readingMarkers (s : Schedule J) (pid : Pid) : List Nat :=
  match (s.apps[pid]?).bind (fun app => app.flight.running) with
  | some running => if running.walk=.published then [] else [running.item.info.marker]
  | none => []

/-- In how many places the marker `m` of `pid` is: waiting, being read, or named by an
outcome. -/
def places (log : Log J R F) (s : Schedule J) (pid : Pid) (m : Nat) : Nat :=
  (waitingMarkers s pid).count m+(readingMarkers s pid).count m+(outcomes log).count (pid,m)

theorem waitingMarkers_eq (s : Schedule J) (pid : Pid) :
    waitingMarkers s pid=(s.desk pid).waiting.map Meta.marker := by
  cases h : s.apps[pid]? <;> simp [waitingMarkers,desk,h,App.desk,Desk.new]

theorem readingMarkers_eq (s : Schedule J) (pid : Pid) :
    readingMarkers s pid=(s.desk pid).unpublished.map Meta.marker := by
  cases h : s.apps[pid]? with
  | none => simp [readingMarkers,desk,h,Desk.new,Desk.unpublished]
  | some app =>
    cases hr : app.flight.running with
    | none =>
      simp [readingMarkers,desk,h,hr,App.desk,Desk.unpublished,InFlight.underWay]
    | some running =>
      by_cases hw : running.walk=.published <;>
        simp [readingMarkers,desk,h,hr,hw,App.desk,Desk.unpublished,InFlight.underWay]

theorem places_eq_pushes {deadline : Nat} (h : Run deadline log s) (pid : Pid) (m : Nat) :
    places log s pid m=(pushes log).count (pid,m) := by
  have hledger := (chain_ledger ((run_kept h).chain pid)).map Meta.marker
  have hcount := hledger.count_eq m
  rw [show Desk.new.held++_=_ from nil_append _,queued_count,map_append,count_append,outcome_count,
    Desk.held,
    map_append,count_append] at hcount
  rw [places,waitingMarkers_eq,readingMarkers_eq]
  omega

theorem pushes_nodup {deadline : Nat}
    (h : Run deadline log s) : ((pushes log).map Prod.snd).Nodup := by
  induction h with
  | start => exact nodup_nil
  | step input now hrun ha ih =>
    rw [pushes_snoc,map_append,nodup_append]
    cases input with
    | push pid info job kind key window =>
      refine ⟨ih,nodup_singleton _,fun a hm b hb => ?_⟩
      rw [show b=info.marker by simpa [pushes] using hb]
      rintro rfl
      exact ha.2 hm
    | _ => simpa [pushes] using ih

/-- Over every run, each event pushed is in exactly one place: waiting in its
application's queue, its read under way and not published, or named by one outcome. -/
theorem pushed_event_in_one_place {deadline : Nat} {log : Log J R F} {s : Schedule J}
    (h : Run deadline log s) {pid : Pid} {m : Nat} (hp : (pid,m)∈pushes log) :
    places log s pid m=1 ∧ ∀ q, q≠pid → places log s q m=0 := by
  have hnd := pushes_nodup h
  rw [places_eq_pushes h]
  refine ⟨count_eq_one_of_mem (List.Nodup.of_map _ hnd) hp,fun q hq => ?_⟩
  rw [places_eq_pushes h,count_eq_zero]
  intro hm
  have := inj_on_of_nodup_map hnd hm hp rfl
  exact hq (congrArg Prod.fst this)

def slowRead : List (ScheduleInput Unit Unit Unit × Nat) :=
  [(.push 7 ⟨1,.focus,0⟩ () .focus none .unknown,5),(.next 7 1,6),
    (.push 7 ⟨2,.focus,0⟩ () .focus none .unknown,7),(.tick,3000000)]

/-- The event of an abandoned read is named by one outcome, the one behind it still waits. -/
theorem slowRead_in_one_place :
    ∃ log s, replay [] (new 2000000) slowRead=some (log,s) ∧
      (7,1)∈outcomes log ∧ places log s 7 1=1 ∧ 2∈waitingMarkers s 7 ∧
      places log s 7 2=1 := by
  have heval : (replay [] (new 2000000) slowRead).any (fun (log,s) =>
      decide ((7,1)∈pushes log ∧ (7,2)∈pushes log ∧ (7,1)∈outcomes log ∧
        2∈waitingMarkers s 7))=true := by decide +kernel
  obtain ⟨⟨log,s⟩,hr,hfacts⟩ := (any_eq_true _ _).mp heval
  simp only [decide_eq_true_eq] at hfacts
  obtain ⟨h1,h2,hout,hwait⟩ := hfacts
  have hrun := replay_run slowRead .start hr
  exact ⟨log,s,hr,hout,(pushed_event_in_one_place hrun h1).1,hwait,
    (pushed_event_in_one_place hrun h2).1⟩

variable {effects : List (ScheduleEffect J R F)}

theorem spawn_split {pid : Pid} {g : Nat}
    {before : List Act} (h : actsOf pid effects=before++[.spawn g]) :
    ∃ earlier reuse later, effects=earlier++.spawn pid g reuse::later ∧
      actsOf pid earlier=before ∧ actsOf pid later=[] := by
  obtain ⟨earlier,rest,rfl,hbefore,hrest⟩ := filterMap_eq_append_iff.mp h
  obtain ⟨skipped,effect,later,rfl,hskip,heffect,hlater⟩ := filterMap_eq_cons_iff.mp hrest
  cases effect with
  | spawn owner generation reuse =>
    simp only [act] at heffect
    split at heffect
    next howner =>
      simp only [some.injEq,Act.spawn.injEq] at heffect
      subst howner heffect
      refine ⟨earlier++skipped,reuse,later,by simp,?_,hlater⟩
      rw [actsOf_append,show actsOf owner skipped=[] from filterMap_eq_nil_iff.mpr hskip,append_nil]
      exact hbefore
    · cases heffect
  | outcome | unwatch | forget | job =>
    simp only [act] at heffect
    split at heffect <;> cases heffect
  | _ => cases heffect

theorem unwatch_mem {pid : Pid} (h : .unwatch∈actsOf pid effects) : .unwatch pid∈effects := by
  obtain ⟨effect,hm,heq⟩ := mem_filterMap.mp h
  cases effect with
  | unwatch owner =>
    simp only [act] at heq
    split at heq
    next howner => exact howner ▸ hm
    · cases heq
  | outcome | spawn | forget | job =>
    simp only [act] at heq
    split at heq <;> cases heq
  | _ => cases heq

theorem app_of_waiting {pid : Pid} (h : (s.desk pid).waiting≠[]) :
    ∃ app, s.apps[pid]?=some app ∧ s.desk pid=app.desk := by
  cases happ : s.apps[pid]? with
  | none => simp [desk_of_none happ,Desk.new] at h
  | some app => exact ⟨app,rfl,desk_of_some happ⟩

/-- Over every run, an application's threads keep their limits: at most two are abandoned,
a read is under way only while a thread is in charge, events wait without one only at the
limit and then under the alarm's bound, a thread whose read was abandoned is never again
in charge under its generation; and every thread put in charge finds none there, an event
waiting and the abandoned ones below the limit, under a generation larger than all since
the application was last forgotten. -/
theorem threads_within_limits {deadline : Nat} {log : Log J R F} {s : Schedule J}
    (h : Run deadline log s) :
    (∀ pid app, s.apps[pid]?=some app →
      app.abandoned≤abandonedLimit ∧
      (app.limitReached.isSome ↔ app.abandoned=abandonedLimit) ∧
      (app.flight.running.isSome → app.threaded=true) ∧
      (s.stopping=false → app.queue≠[] → app.threaded=false →
        app.abandoned=abandonedLimit ∧ (app.waitingEnd s.deadline).isSome) ∧
      ∀ g∈(threadsOf (history pid log)).dead, app.inCharge g=false) ∧
    ∀ (input : ScheduleInput J R F) (now : Nat), Allows log input →
      ∀ pid g reuse, .spawn pid g reuse∈(s.step input now).2 →
      ∃ earlier later app, (s.step input now).2=earlier++.spawn pid g reuse::later ∧
        actsOf pid later=[] ∧
        ((∀ app, s.apps[pid]?=some app → app.threaded=false) ∨ .unwatch pid∈earlier) ∧
        (∀ g'∈(threadsOf (history pid log)).spawned, g'<g) ∧
        (s.step input now).1.apps[pid]?=some app ∧ app.threaded=true ∧
        app.flight.generation=g ∧ app.flight.running=none ∧ app.queue≠[] ∧
        app.abandoned<abandonedLimit := by
  have hkept := run_kept h
  constructor
  · intro pid app happ
    have hsound := hkept.sound pid
    have hleads := hkept.leads pid
    have hsettled := fun hst => hkept.settled hst pid
    rw [desk_of_some happ] at hsound hleads hsettled
    have hlimit : app.limitReached.isSome ↔ app.abandoned=abandonedLimit := hsound.limited
    refine ⟨hsound.atMost,hlimit,?_,?_,?_⟩
    · intro hr
      refine hsound.threaded ?_
      simpa [App.desk,InFlight.underWay] using hr
    · intro hst hq ht
      have hfull : app.abandoned=abandonedLimit := hsettled hst (by simpa [App.desk] using hq) ht
      refine ⟨hfull,?_⟩
      simpa [App.waitingEnd,ht,hq] using hlimit.mpr hfull
    · intro g hg
      have hlt : g<app.flight.generation := hleads.dead g hg
      simp [App.inCharge,Nat.ne_of_gt hlt]
  · intro input now ha pid g reuse hm
    have hsteps := hkept.steps now ha
    have hacts : .spawn g∈actsOf pid (s.step input now).2 :=
      (mem_spawns_iff pid g _).mp (mem_filterMap.mpr ⟨_,hm,rfl⟩)
    obtain ⟨before,hbefore,hno,hthread,hgen,hd⟩ := hsteps.spawns pid g hacts
    obtain ⟨ht,hg,hr,hw,hlt⟩ := hd
    obtain ⟨earlier,reuse',later,heffects,hearlier,hlater⟩ := spawn_split hbefore
    obtain ⟨app,happ,hdesk⟩ := app_of_waiting hw
    rw [hdesk] at ht hg hr hw hlt
    -- Only one effect of the step puts a thread in charge, so it is the one found.
    have hreuse : reuse=reuse' := by
      rw [heffects] at hm
      rcases mem_append.mp hm with hm | hm
      · exact absurd (hearlier ▸ (mem_spawns_iff pid g _).mp (mem_filterMap.mpr ⟨_,hm,rfl⟩)) (hno g)
      rcases mem_cons.mp hm with hm | hm
      · cases hm
        rfl
      have := (mem_spawns_iff pid g _).mp (mem_filterMap.mpr ⟨_,hm,rfl⟩)
      rw [hlater] at this
      cases this
    subst hreuse
    refine ⟨earlier,later,app,heffects,hlater,?_,?_,happ,ht,hg,?_,by simpa [App.desk] using hw,hlt⟩
    · rcases hthread with hthread | hthread
      · refine Or.inl fun app' happ' => ?_
        rw [desk_of_some happ'] at hthread
        exact hthread
      · exact Or.inr (unwatch_mem (hearlier ▸ hthread))
    · intro g' hg'
      exact Nat.lt_of_le_of_lt ((hkept.leads pid).spawned g' hg') hgen
    · simpa [App.desk,InFlight.underWay] using hr

/-- Once the first read is abandoned, a new thread takes the event behind it. -/
theorem slowRead_within_limits :
    ∃ log s, replay [] (new 2000000) (slowRead.take 3)=some (log,s) ∧
      (∀ (pid : Pid) (app : App Unit), s.apps[pid]?=some app → app.abandoned≤abandonedLimit) ∧
      ∃ app, (s.step (R := Unit) (F := Unit) .tick 3000000).1.apps[7]?=some app ∧
        app.flight.generation=3 ∧ app.threaded=true ∧ app.abandoned<abandonedLimit := by
  have heval : (replay [] (new 2000000) (slowRead.take 3)).any (fun (log,s) =>
      decide ((Shell.of log).asks=[] ∧
        (7,3)∈(s.step (R := Unit) (F := Unit) .tick 3000000).2.filterMap spawnOf))=true := by
    decide +kernel
  obtain ⟨⟨log,s⟩,hr,hfacts⟩ := (any_eq_true _ _).mp heval
  simp only [decide_eq_true_eq] at hfacts
  obtain ⟨effect,hm,heq⟩ := mem_filterMap.mp hfacts.2
  have hlimits := threads_within_limits (replay_run _ .start hr)
  refine ⟨log,s,hr,fun pid app happ => (hlimits.1 pid app happ).1,?_⟩
  cases effect with
  | spawn owner generation reuse =>
    cases heq
    obtain ⟨-,-,app,-,-,-,-,happ,ht,hg,-,-,hlt⟩ := hlimits.2 .tick 3000000 hfacts.1 7 3 reuse hm
    exact ⟨app,happ,hg,ht,hlt⟩
  | _ => cases heq

end Verbatim.Listener
