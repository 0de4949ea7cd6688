import Verbatim.Listener.Alarm
import Mathlib.Data.List.TakeWhile

namespace Verbatim.Listener

open Framework ReaderRules List Schedule Option Nat

variable {J R F : Type}

def App.opened (app : App J) : List (Nat × Meta) :=
  (match app.flight.underWay with
    | some (_,reading,false) => [(reading.place,reading.info)]
    | _ => [])++app.queue.map fun queued => (queued.place,queued.info)

def Schedule.opened (s : Schedule J) (pid : Pid) : List (Nat × Meta) :=
  (s.apps[pid]?).elim [] App.opened

def Due (s : Schedule J) (before : Nat) : Prop := ∀ pid, ∀ event∈s.opened pid, before<event.1

def Idle (s : Schedule J) : Prop := ∀ waiter∈s.idleWaiters, ¬Due s waiter.1

def runOf : ScheduleEffect J R F → Option Nat
  | .runIdle waiter => some waiter
  | _ => none

def runsOf (effects : List (ScheduleEffect J R F)) : List Nat := effects.filterMap runOf

/-- Events are queued and waiters registered in order. -/
structure Ordered (s : Schedule J) : Prop where
  places : ∀ pid, ((s.opened pid).map (·.1)).Pairwise (·<·)
  placed : ∀ pid, ∀ event∈s.opened pid, event.1 ≤ s.queued
  waiters : (s.idleWaiters.map (·.1)).Pairwise (·≤·)
  waited : ∀ waiter∈s.idleWaiters, waiter.1 ≤ s.queued

/-- Events may have got their outcome from `s` to `s'`; the waiters were not yet woken. -/
structure Drops (s s' : Schedule J) : Prop where
  opened : ∀ pid, (s'.opened pid).Sublist (s.opened pid)
  waiters : s'.idleWaiters=s.idleWaiters
  queued : s'.queued=s.queued
  stopping : s'.stopping=s.stopping

/-- Nothing got its outcome. -/
structure Same (s s' : Schedule J) : Prop where
  opened : ∀ pid, s'.opened pid=s.opened pid
  waiters : s'.idleWaiters=s.idleWaiters
  queued : s'.queued=s.queued
  stopping : s'.stopping=s.stopping

/-- A part of a step that queues no event: events may get their outcome, and the waiters `runs` run,
each with nothing left before it. -/
structure Turns (s s' : Schedule J) (runs : List Nat) : Prop where
  opened : ∀ pid, (s'.opened pid).Sublist (s.opened pid)
  queued : s'.queued=s.queued
  stopping : s'.stopping=s.stopping
  waited : ∃ done, s.idleWaiters=done++s'.idleWaiters ∧ done.map (·.2)=runs ∧
    ∀ waiter∈done, Due s' waiter.1
  idle : Idle s → Idle s'

/-- What a part of a step leaves and has done. -/
abbrev Turned (s : Schedule J) (r : Handled J R F) : Prop :=
  Turns s r.1 (runsOf r.2)

variable {s s' s'' : Schedule J} {runs runs' : List Nat}

theorem Same.drops (h : Same s s') : Drops s s' :=
  ⟨fun pid => h.opened pid ▸ List.Sublist.refl _,h.waiters,h.queued,h.stopping⟩

theorem Same.refl (s : Schedule J) : Same s s := ⟨fun _ => rfl,rfl,rfl,rfl⟩

theorem Same.trans (h : Same s s') (h' : Same s' s'') : Same s s'' :=
  ⟨fun pid => (h'.opened pid).trans (h.opened pid),h'.waiters.trans h.waiters,
    h'.queued.trans h.queued,h'.stopping.trans h.stopping⟩

theorem Drops.then_same (h : Drops s s') (h' : Same s' s'') : Drops s s'' :=
  ⟨fun pid => h'.opened pid ▸ h.opened pid,h'.waiters.trans h.waiters,h'.queued.trans h.queued,
    h'.stopping.trans h.stopping⟩

theorem Due.of_sublist {before : Nat} (h : ∀ pid, (s'.opened pid).Sublist (s.opened pid))
    (hdue : Due s before) : Due s' before :=
  fun pid event hmem => hdue pid event ((h pid).subset hmem)

theorem due_congr (h : Same s s') (before : Nat) : Due s' before ↔ Due s before := by
  simp only [Due,h.opened]

theorem Same.turns (h : Same s s') : Turns s s' [] where
  opened := h.drops.opened
  queued := h.queued
  stopping := h.stopping
  waited := ⟨[],by rw [h.waiters]; rfl,rfl,(fun _ hmem => nomatch hmem)⟩
  idle hidle waiter hmem := by
    rw [due_congr h]
    exact hidle waiter (h.waiters ▸ hmem)

theorem Turns.refl (s : Schedule J) : Turns s s [] := (Same.refl s).turns

theorem Turns.trans (h : Turns s s' runs) (h' : Turns s' s'' runs') :
    Turns s s'' (runs++runs') where
  opened pid := (h'.opened pid).trans (h.opened pid)
  queued := h'.queued.trans h.queued
  stopping := h'.stopping.trans h.stopping
  waited := by
    obtain ⟨done,hdone,hruns,hdue⟩ := h.waited
    obtain ⟨done',hdone',hruns',hdue'⟩ := h'.waited
    refine ⟨done++done',?_,?_,?_⟩
    · rw [hdone,hdone',append_assoc]
    · rw [map_append,hruns,hruns']
    intro waiter hmem
    obtain hmem | hmem := mem_append.mp hmem
    · exact (hdue waiter hmem).of_sublist h'.opened
    · exact hdue' waiter hmem
  idle hidle := h'.idle (h.idle hidle)

theorem Turns.ordered (h : Turns s s' runs) (hordered : Ordered s) : Ordered s' := by
  obtain ⟨done,hdone,-,-⟩ := h.waited
  refine ⟨fun pid => ?_,fun pid event hmem => ?_,?_,fun waiter hmem => ?_⟩
  · exact (hordered.places pid).sublist ((h.opened pid).map _)
  · rw [h.queued]
    exact hordered.placed pid event ((h.opened pid).subset hmem)
  · have hwaiters := hordered.waiters
    rw [hdone,map_append] at hwaiters
    exact (pairwise_append.mp hwaiters).2.1
  · rw [h.queued]
    exact hordered.waited waiter (hdone ▸ mem_append_right _ hmem)

theorem oldestPlace_eq (app : App J) : oldestPlace app=app.opened.head?.map (·.1) := by
  cases hr : app.flight.running with
  | none => simp [oldestPlace,App.opened,InFlight.underWay,hr,Function.comp_def]
  | some running =>
    by_cases hw : running.walk=.published <;>
      simp [oldestPlace,App.opened,InFlight.underWay,hr,hw,Function.comp_def]

theorem opened_of_some {pid : Pid} {app : App J} (h : s.apps[pid]?=some app) :
    s.opened pid=app.opened := by
  simp [opened,h]

theorem opened_of_none {pid : Pid} (h : s.apps[pid]?=none) : s.opened pid=[] := by
  simp [opened,h]

/-- Whether the oldest event of all without an outcome is after the waiter. -/
def Schedule.waiterDue (s : Schedule J) (waiter : Nat × Nat) : Bool :=
  (s.values.filterMap oldestPlace).min?.all fun oldest => waiter.1<oldest

theorem waiterDue_iff (hordered : Ordered s) (waiter : Nat × Nat) :
    s.waiterDue waiter=true ↔ Due s waiter.1 := by
  obtain ⟨before,waiter⟩ := waiter
  have hleast : (∀ place∈s.values.filterMap oldestPlace, before<place) ↔ Due s before := by
    constructor
    · intro hall pid event hmem
      cases happ : s.apps[pid]? with
      | none =>
        rw [opened_of_none happ] at hmem
        cases hmem
      | some app =>
        have hplaces := hordered.places pid
        rw [opened_of_some happ] at hmem hplaces
        cases hopened : app.opened with
        | nil =>
          rw [hopened] at hmem
          cases hmem
        | cons first rest =>
          have hfirst : before<first.1 := by
            refine hall first.1 (mem_filterMap.mpr ⟨app,mem_values.mpr ⟨pid,happ⟩,?_⟩)
            rw [oldestPlace_eq,hopened]
            rfl
          rw [hopened] at hmem hplaces
          obtain rfl | hmem := mem_cons.mp hmem
          · exact hfirst
          · exact lt_trans hfirst ((pairwise_cons.mp hplaces).1 _ (mem_map_of_mem hmem))
    · intro hdue place hmem
      obtain ⟨app,happ,hplace⟩ := mem_filterMap.mp hmem
      obtain ⟨pid,happ⟩ := mem_values.mp happ
      rw [oldestPlace_eq] at hplace
      obtain ⟨event,hhead,rfl⟩ := map_eq_some_iff.mp hplace
      refine hdue pid event ?_
      rw [opened_of_some happ]
      exact mem_of_mem_head? hhead
  rw [waiterDue,← hleast]
  cases hmin : (s.values.filterMap oldestPlace).min? with
  | none =>
    rw [min?_eq_none_iff.mp hmin]
    simp
  | some oldest =>
    obtain ⟨hmem,hle⟩ := min?_eq_some_iff.mp hmin
    simp only [all_some,decide_eq_true_eq]
    exact ⟨fun hlt place hplace => lt_of_lt_of_le hlt (hle place hplace),
      fun hall => hall oldest hmem⟩

theorem Drops.ordered (h : Drops s s') (hordered : Ordered s) : Ordered s' where
  places pid := (hordered.places pid).sublist ((h.opened pid).map _)
  placed pid event hmem := h.queued ▸ hordered.placed pid event ((h.opened pid).subset hmem)
  waiters := h.waiters ▸ hordered.waiters
  waited waiter hmem := h.queued ▸ hordered.waited waiter (h.waiters ▸ hmem)

theorem Due.mono {before before' : Nat} (hdue : Due s before') (hle : before≤before') :
    Due s before :=
  fun pid event hmem => lt_of_le_of_lt hle (hdue pid event hmem)

theorem wakeIdleWaiters_idle (hordered : Ordered s) :
    Idle (@wakeIdleWaiters J R F s).1 := by
  intro waiter hmem hdue
  have hsame : Due s waiter.1 := hdue
  have hmem : waiter∈s.idleWaiters.dropWhile s.waiterDue := hmem
  have hsorted := hordered.waiters.sublist ((dropWhile_sublist s.waiterDue).map (·.1))
  have hfirst := head?_dropWhile_not s.waiterDue s.idleWaiters
  generalize s.idleWaiters.dropWhile s.waiterDue=left at hmem hsorted hfirst
  cases left with
  | nil => cases hmem
  | cons first rest =>
    have hle : first.1≤waiter.1 := by
      obtain rfl | hmem := mem_cons.mp hmem
      · exact le_refl _
      · exact (pairwise_cons.mp hsorted).1 _ (mem_map_of_mem hmem)
    have hwaits : s.waiterDue first=false := hfirst
    rw [(waiterDue_iff hordered first).mpr (hsame.mono hle)] at hwaits
    cases hwaits

theorem Drops.wakes (h : Drops s s') (hordered : Ordered s) :
    Turned s (@wakeIdleWaiters J R F s') where
  opened := h.opened
  queued := h.queued
  stopping := h.stopping
  waited := by
    refine ⟨s'.idleWaiters.takeWhile s'.waiterDue,?_,?_,?_⟩
    · rw [← h.waiters]
      exact (takeWhile_append_dropWhile).symm
    · simp only [runsOf,wakeIdleWaiters,filterMap_map,Function.comp_def,runOf,filterMap_eq_map']
      rfl
    · intro waiter hmem
      exact (waiterDue_iff (h.ordered hordered) waiter).mp (mem_takeWhile_imp hmem)
  idle _ := wakeIdleWaiters_idle (h.ordered hordered)

@[simp] theorem runsOf_append (effects others : List (ScheduleEffect J R F)) :
    runsOf (effects++others)=runsOf effects++runsOf others :=
  filterMap_append

@[simp] theorem runsOf_dropAll (pid : Pid) (events : List (Queued J)) (reason : String) :
    runsOf (@dropAll J R F pid events reason)=[] := by
  simp [runsOf,dropAll,filterMap_map,Function.comp_def,runOf]

section Changes

variable {pid : Pid} {app app' : App J}

theorem opened_congr (hflight : app'.flight.underWay=app.flight.underWay)
    (hqueue : app'.queue=app.queue) : app'.opened=app.opened := by
  rw [App.opened,App.opened,hflight,hqueue]

theorem opened_sublist (hflight : app'.flight.underWay=app.flight.underWay)
    (hqueue : app'.queue.Sublist app.queue) : app'.opened.Sublist app.opened := by
  rw [App.opened,App.opened,hflight]
  exact (List.Sublist.refl _).append (hqueue.map _)

theorem opened_ended (hnone : app'.flight.running=none) (hqueue : app'.queue=app.queue) :
    app'.opened.Sublist app.opened := by
  rw [App.opened,App.opened,InFlight.underWay,hnone,hqueue]
  exact sublist_append_right _ _

theorem opened_setApp_ne (s : Schedule J) {q : Pid} (hne : q≠pid) (app : App J) :
    (s.setApp pid app).opened q=s.opened q := by
  simp [opened,setApp_ne s hne]

theorem opened_setApp_self (s : Schedule J) (pid : Pid) (app : App J) :
    (s.setApp pid app).opened pid=app.opened := by
  simp [opened]

theorem drops_setApp (h : app'.opened.Sublist (s.opened pid)) : Drops s (s.setApp pid app') := by
  refine ⟨fun q => ?_,rfl,rfl,rfl⟩
  by_cases hq : q=pid
  · rw [hq,opened_setApp_self]
    exact h
  · rw [opened_setApp_ne s hq]

theorem same_setApp (h : app'.opened=s.opened pid) : Same s (s.setApp pid app') := by
  refine ⟨fun q => ?_,rfl,rfl,rfl⟩
  by_cases hq : q=pid
  · rw [hq,opened_setApp_self]
    exact h
  · rw [opened_setApp_ne s hq]

theorem same_update (happ : s.apps[pid]?=some app)
    (hflight : app'.flight.underWay=app.flight.underWay) (hqueue : app'.queue=app.queue) :
    Same s (s.setApp pid app') :=
  same_setApp ((opened_congr hflight hqueue).trans (opened_of_some happ).symm)

theorem same_mapApps (s : Schedule J) (f : Pid → App J → App J)
    (h : ∀ pid app, (f pid app).opened=app.opened) : Same s {s with apps := s.apps.map f} := by
  refine ⟨fun q => ?_,rfl,rfl,rfl⟩
  cases hq : s.apps[q]? with
  | none => simp [opened,hq]
  | some app => simp [opened,hq,h]

theorem movedAwayFromAllBut_same (s : Schedule J) (pid : Pid) :
    Same s (s.movedAwayFromAllBut pid) := by
  refine same_mapApps s _ fun owner app => ?_
  split <;> rfl

theorem foreground_same (s : Schedule J) (topLevel : Option Window)
    (runningTops : List (Pid × Option Window)) : Same s (s.foreground topLevel runningTops) := by
  refine same_mapApps s _ (fun owner app => ?_)
  dsimp only
  split <;> rfl

theorem letGo_same (h : s.opened pid=[]) : Same s (@letGo J R F s pid).1 := by
  refine ⟨fun q => ?_,rfl,rfl,rfl⟩
  by_cases hq : q=pid
  · rw [hq,h]
    simp [letGo,opened]
  · simp [letGo,opened,Std.ExtTreeMap.getElem?_erase,Ne.symm hq]

theorem start_same (s : Schedule J) (pid : Pid) (reuse : Bool) :
    Same s (@start J R F s pid reuse).1 ∧
      runsOf (@start J R F s pid reuse).2=[] := by
  cases h : s.apps[pid]? with
  | none => simp [start,h,Same.refl,runsOf]
  | some app =>
    rw [start_eq h]
    exact ⟨same_update h rfl rfl,rfl⟩

theorem opened_nil (hr : app.desk.reading=none) (hq : app.queue=[]) : app.opened=[] := by
  have hr : app.flight.underWay=none := by simpa [App.desk] using hr
  rw [App.opened,hr,hq]
  rfl

theorem spent_opened (hreads : app.desk.threaded=false → app.desk.reading=none)
    (h : app.spent=true) : app.opened=[] := by
  simp only [App.spent,Bool.and_eq_true,Bool.not_eq_true',decide_eq_true_eq,List.isEmpty_iff] at h
  exact opened_nil (hreads h.1.1.2) h.2

theorem decides_opened {f flight : InFlight Reading} {decision : Decision Reading}
    (h : f.Decides flight decision) :
    ({app with flight} : App J).opened.Sublist ({app with flight := f} : App J).opened := by
  cases decision with
  | abandon abandoned =>
    obtain ⟨running,-,hnone,-⟩ := h
    exact opened_ended hnone rfl
  | nothing | ask ask => exact opened_sublist h.1 (List.Sublist.refl _)

variable (now : Nat) (hordered : Ordered s)

include hordered

theorem dropWaiting_turns : Turned s (@dropWaiting J R F s pid) := by
  cases h : s.apps[pid]? with
  | none => simpa [Turned,dropWaiting,h,runsOf] using .refl s
  | some app =>
    by_cases hkeeps : (app.threaded || app.queue.isEmpty)=true
    · simpa [Turned,dropWaiting,h,hkeeps,runsOf] using .refl s
    simp only [Bool.or_eq_true,List.isEmpty_iff,not_or,Bool.not_eq_true] at hkeeps
    rw [dropWaiting_eq h hkeeps.1 hkeeps.2,Turned,runsOf_append,runsOf_dropAll,nil_append]
    refine (drops_setApp ?_).wakes hordered
    rw [opened_of_some h]
    exact opened_sublist rfl (nil_sublist _)

theorem abandon_turns {t : Schedule J} (abandoned : Abandoned Reading)
    (hdrops : Drops s t) (happ : t.apps[pid]?=some app) :
    Turned s (@abandon J R F t now pid abandoned) := by
  rw [abandon_eq now app app.flight happ abandoned]
  have hset : Same t (t.setApp pid (abandonedApp app app.flight now)) :=
    same_update happ rfl rfl
  have hstarted := @start_same J R F
    (t.setApp pid (abandonedApp app app.flight now)) pid false
  have hout : runsOf ((.unwatch pid::if abandoned.published then [] else
      [.outcome pid abandoned.item.info (.dropped (dropReason abandoned.reason))] :
      List (ScheduleEffect J R F)))=[] := by
    split <;> rfl
  simp only [Turned,runsOf_append,hout,nil_append]
  split
  · rw [hstarted.2,nil_append]
    exact (hdrops.then_same (hset.trans hstarted.1)).wakes hordered
  · exact (hdrops.then_same hset).wakes hordered

theorem decided_turns {t : Schedule J} (decision : Decision Reading)
    (hdrops : Drops s t) (happ : t.apps[pid]?=some app)
    (hsame : (∀ abandoned, decision≠.abandon abandoned) → Same s t) :
    Turned s (@decided J R F t now pid decision) := by
  cases decision with
  | nothing => exact (hsame (fun _ heq => nomatch heq)).turns
  | abandon abandoned => exact abandon_turns now hordered abandoned hdrops happ
  | ask ask =>
    have hturns := (hsame (fun _ heq => nomatch heq)).turns
    cases ask with
    | publish request thenAbandon => exact hturns
    | judge request window => cases window <;> exact hturns

theorem flight_turns {flight : InFlight Reading} {decision : Decision Reading}
    (happ : s.apps[pid]?=some app)
    (hdecides : app.flight.Decides flight decision) :
    Turned s (@decided J R F (s.setApp pid {app with flight}) now pid decision) := by
  refine decided_turns now hordered decision (drops_setApp ?_) (setApp_self s pid _)
    fun hstays => ?_
  · rw [opened_of_some happ]
    exact decides_opened hdecides
  · cases decision with
    | abandon abandoned => exact absurd rfl (hstays abandoned)
    | nothing | ask ask => exact same_update happ hdecides.1 rfl

end Changes

section Transitions

variable {pid : Pid} {app : App J} (now : Nat) (request : Request)

theorem armed_same (bound : Nat) : Same s (s.armed pid request bound) := by
  unfold armed
  split
  · exact Same.refl s
  next app happ =>
    exact same_update happ (app.flight.armed_decides request bound).1 rfl

theorem published_opened (thenAbandon : Option Reason) (now : Nat) :
    ({app with flight := (app.flight.published request true thenAbandon now).1} :
      App J).opened.Sublist app.opened := by
  have hdecides := app.flight.published_decides request true thenAbandon now
  have hmark : ({app with flight := app.flight.mark request true} : App J).opened.Sublist
      app.opened := by
    unfold InFlight.mark
    cases hrun : app.flight.runningOf request with
    | none => exact List.Sublist.refl _
    | some running =>
      exact sublist_append_right _ _
  exact (decides_opened hdecides).trans hmark

/-- One more event, queued behind all others. -/
structure Adds (s s' : Schedule J) (pid : Pid) (info : Meta) : Prop where
  own : s'.opened pid=s.opened pid++[(s.queued+1,info)]
  others : ∀ q, q≠pid → s'.opened q=s.opened q
  waiters : s'.idleWaiters=s.idleWaiters
  queued : s'.queued=s.queued+1
  stopping : s'.stopping=s.stopping

theorem noted_same (s : Schedule J) (pid : Pid) (kind : FocusEvent) :
    Same {s with queued := s.queued+1} (noted s pid kind) := by
  unfold noted
  split
  · exact (⟨fun _ => rfl,rfl,rfl,rfl⟩ : Same {s with queued := s.queued+1}
      {s with queued := s.queued+1, lastFocus := some pid}).trans
      (movedAwayFromAllBut_same _ pid)
  · exact Same.refl _

theorem enqueue_adds (info : Meta) (job : J) (kind : FocusEvent) (key : Option (List Int))
    (window : RuleWindow) (hheld : (s.apps[pid]?).isSome) :
    Adds s (s.enqueue pid info job kind key window) pid info := by
  have hnoted := noted_same s pid kind
  obtain ⟨app,happ⟩ := isSome_iff_exists.mp (noted_holds s pid kind hheld)
  obtain ⟨w,hinfo,hplace,henq⟩ := enqueue_eq s pid info job kind key window happ
  rw [henq]
  refine ⟨?_,fun q hq => ?_,hnoted.waiters,hnoted.queued,hnoted.stopping⟩
  · have hopened : app.opened=s.opened pid := by
      rw [← opened_of_some happ]
      exact hnoted.opened pid
    rw [opened_setApp_self,← hopened,← hinfo,← hplace]
    simp [App.opened]
  · rw [opened_setApp_ne _ hq]
    exact hnoted.opened q

theorem next_turns (generation : Nat) (hs : (s.desk pid).Sound)
    {jobs : List (Request × Meta)} (hj : (s.desk pid).Holds jobs)
    (hfree : ∀ j∈jobs, j.1.generation≠generation) :
    Turned s (@Schedule.next J R F s now pid generation) := by
  unfold Schedule.next
  split
  · exact .refl s
  split
  · exact .refl s
  next app happ =>
    rw [desk_of_some happ] at hs hj
    split
    · exact .refl s
    next hcharge =>
      have hcharge : app.threaded=true ∧ app.flight.generation=generation := by
        simpa [App.inCharge] using hcharge
      have hnone := reading_free hs hj hcharge.2 hfree
      split
      next queued rest hqueue =>
        refine (same_setApp ?_).turns
        have hrun : app.flight.running=none := by
          simpa [App.desk,InFlight.underWay] using hnone
        rw [opened_of_some happ]
        simp [App.opened,hrun,hqueue,InFlight.start,InFlight.nextRequest,
          InFlight.setRunning,InFlight.underWay]
      next hqueue =>
        split
        · have hset : Same s (s.setApp pid {app with threaded := false}) :=
            same_update happ rfl rfl
          dsimp only
          split
          · refine (hset.trans (letGo_same ?_)).turns
            rw [opened_setApp_self]
            exact opened_nil hnone hqueue
          · exact hset.turns
        · exact .refl s

theorem endOf_opened :
    ({app with flight := (app.flight.endOf request).1} : App J).opened.Sublist app.opened := by
  unfold InFlight.endOf
  cases app.flight.runningOf request with
  | none => exact List.Sublist.refl _
  | some running => exact opened_ended rfl rfl

theorem outpostEnded_turns (hs : (s.desk pid).Sound) :
    Turned s (@outpostEnded J R F s pid) := by
  unfold outpostEnded
  split
  · exact .refl s
  next app happ =>
    rw [desk_of_some happ] at hs
    have hset : Same s (s.setApp pid {app with ending := true}) :=
      same_update happ rfl rfl
    dsimp only
    split
    next hspent =>
      refine (hset.trans (letGo_same ?_)).turns
      rw [opened_setApp_self]
      exact spent_opened hs.reading_none hspent
    · exact hset.turns

variable (hordered : Ordered s)

include hordered

theorem tickApp_turns (pid : Pid) : Turned s (@tickApp J R F s now pid) := by
  unfold tickApp
  split
  · exact .refl s
  next app happ =>
    split
    · exact flight_turns now hordered happ (app.flight.judge_decides now)
    split
    · exact dropWaiting_turns hordered
    · exact .refl s

theorem tickAll_turns (pids : List Pid) : Turned s (@tickAll J R F now pids s) := by
  induction pids generalizing s with
  | nil => exact .refl s
  | cons pid pids ih =>
    have happ := tickApp_turns (R := R) (F := F) now hordered pid
    have hrest := ih (happ.ordered hordered)
    simp only [Turned,tickAll,runsOf_append]
    exact happ.trans hrest

theorem learned_turns (window : Window) : Turned s (@learned J R F s now pid request window) := by
  unfold learned
  split
  · exact .refl s
  split
  · exact .refl s
  next app happ =>
    exact flight_turns now hordered happ (app.flight.learned_decides request window now)

theorem judged_turns (verdict : Option Reason) :
    Turned s (@judged J R F s now pid request verdict) := by
  unfold judged
  split
  · exact .refl s
  next app happ =>
    exact flight_turns now hordered happ (app.flight.judged_decides request verdict)

theorem published_turns (read : Option R) (thenAbandon : Option Reason) :
    Turned s (s.published (F := F) now pid request read thenAbandon) := by
  cases happ : s.apps[pid]? with
  | none => simpa [Turned,published,happ,runsOf] using .refl s
  | some app =>
    simp only [Turned,published,happ,runsOf_append]
    generalize hinfo : Option.map _ (app.flight.running.filter _)=info
    have hdrops : Drops s (s.setApp pid {app with
        flight := (app.flight.published request true thenAbandon now).1}) :=
      drops_setApp (opened_of_some happ ▸ published_opened request thenAbandon now)
    have hwoken := hdrops.wakes (R := R) (F := F) hordered
    have hdecides := app.flight.published_decides request false thenAbandon now
    rw [mark_false] at hdecides
    have hrefused := flight_turns (R := R) (F := F) now hordered happ hdecides
    cases info with
    | none => exact hrefused
    | some info =>
      cases read with
      | none => exact hrefused
      | some read =>
        exact hwoken.trans (decided_turns now (hwoken.ordered hordered) _
          (Same.refl _).drops (setApp_self s pid _) fun _ => Same.refl _)

theorem replaceWaiting_turns (pid : Pid) (kind : FocusEvent) (key : Option (List Int)) :
    Turned s (@replaceWaiting J R F s pid kind key) := by
  have hopened : ((s.apps[pid]?).getD App.new).opened=s.opened pid := by
    cases happ : s.apps[pid]? with
    | none => simp [opened_of_none happ,App.opened,App.new,InFlight.underWay,InFlight.new]
    | some app => simp [opened_of_some happ]
  simp only [Turned,replaceWaiting,runsOf_append,runsOf_dropAll,nil_append]
  split
  next hnone =>
    refine Same.turns (same_setApp ?_)
    rw [← hopened]
    refine opened_congr rfl (filter_eq_self.mpr fun waiting hmem => ?_)
    have hkept := filter_eq_nil_iff.mp (List.isEmpty_iff.mp hnone) waiting hmem
    simpa using hkept
  · refine (drops_setApp ?_).wakes hordered
    rw [← hopened]
    exact opened_sublist rfl filter_sublist

theorem attend_turns (pid : Pid) : Turned s (@attend J R F s now pid) := by
  unfold attend
  split
  · exact .refl s
  split
  · exact .refl s
  split
  · exact dropWaiting_turns hordered
  split
  · exact .refl s
  have hstart := @start_same J R F s pid false
  rw [Turned,hstart.2]
  exact hstart.1.turns

theorem returned_turns (info : Meta) (judged : Judged R F)
    (top : Option Window) (hs : (s.desk pid).Sound) :
    Turned s (s.returned pid request info judged top) := by
  cases happ : s.apps[pid]? with
  | none => simpa [Turned,returned,happ,runsOf] using .refl s
  | some app =>
    cases hcharge : app.inCharge request.generation with
    | true =>
      simp only [Turned,returned,happ,hcharge,if_true,runsOf_append]
      generalize hkept : (if (judged.isRead && top.isSome)=true then
        ({app with lastTop := top} : App J) else app)=kept
      have hopened : kept.opened=app.opened := by
        rw [← hkept]
        split <;> rfl
      have hdrops : Drops s (s.setApp pid {kept with
          flight := (kept.flight.endOf request).1}) :=
        drops_setApp (by rw [opened_of_some happ,← hopened]; exact endOf_opened request)
      have hwoken := hdrops.wakes (R := R) (F := F) hordered
      generalize (kept.flight.endOf request).2=ended
      obtain _ | ⟨reading,_ | _⟩ := ended <;> exact hwoken
    | false =>
      have hstray : Same s (s.setApp pid (strayApp app)) :=
        same_update happ rfl rfl
      rw [returned_stray_eq info judged top happ hcharge]
      split
      next hspent =>
        refine (hstray.trans (letGo_same (R := R) (F := F) ?_)).turns
        rw [opened_setApp_self]
        rw [desk_of_some happ] at hs
        exact spent_opened hs.reading_none hspent
      split
      · exact hstray.turns
      have hstart := @start_same J R F (s.setApp pid (strayApp app)) pid true
      have hruns : runsOf (.forgetLast :: ((s.setApp pid (strayApp app)).start pid true).2)=[] :=
        hstart.2
      rw [Turned,hruns]
      exact (hstray.trans hstart.1).turns

theorem spawnFailed_turns (generation : Nat)
    (hfree : (s.desk pid).generation=generation → (s.desk pid).reading=none) :
    Turned s (@spawnFailed J R F s pid generation) := by
  cases happ : s.apps[pid]? with
  | none => simpa [Turned,spawnFailed,happ,runsOf] using .refl s
  | some app =>
    cases hcharge : app.inCharge generation with
    | false => simpa [Turned,spawnFailed,happ,hcharge,runsOf] using .refl s
    | true =>
      have hgen : app.threaded=true ∧ app.flight.generation=generation := by
        simpa [App.inCharge] using hcharge
      rw [desk_of_some happ] at hfree
      have hnil : (failedApp app).opened=[] := opened_nil (hfree hgen.2) rfl
      have hset : Drops s (s.setApp pid (failedApp app)) := drops_setApp (hnil ▸ nil_sublist _)
      have hgone : Drops s (@letGoFailed J R F s pid app).1 ∧
          runsOf (@letGoFailed J R F s pid app).2=[] := by
        unfold letGoFailed
        split
        · refine ⟨hset.then_same (letGo_same ?_),rfl⟩
          rw [opened_setApp_self,hnil]
        · exact ⟨hset,rfl⟩
      rw [spawnFailed_eq happ hcharge,Turned,runsOf_append,runsOf_append,runsOf_dropAll,hgone.2]
      exact hgone.1.wakes hordered

end Transitions

def ScheduleInput.joins : ScheduleInput J R F → Bool
  | .push _ _ _ _ _ _ | .whenIdle _ | .stop => true
  | _ => false

theorem handle_turns (input : ScheduleInput J R F) (now : Nat) (hjoins : input.joins=false)
    {jobs : Pid → List (Request × Meta)} (hs : ∀ q, (s.desk q).Sound)
    (hj : ∀ q, (s.desk q).Holds (jobs q)) (hfits : Fits s jobs input) (hordered : Ordered s) :
    Turned s (s.handle input now) := by
  cases input with
  | push pid info job kind key window | whenIdle waiter => cases hjoins
  | next pid generation => exact next_turns now generation (hs pid) (hj pid) hfits
  | returned pid request info judged top =>
    exact returned_turns request hordered info judged top (hs pid)
  | tick =>
    have hset : Same s {s with alarmDue := none} := ⟨fun _ => rfl,rfl,rfl,rfl⟩
    simp only [handle,tick]
    split
    · exact hset.turns
    · exact hset.turns.trans (tickAll_turns now (hset.drops.ordered hordered) _)
  | learned pid request window => exact learned_turns now request hordered window
  | armed pid request bound => exact (armed_same request bound).turns
  | judged pid request verdict => exact judged_turns now request hordered verdict
  | published pid request read thenAbandon =>
    exact published_turns now request hordered read thenAbandon
  | foreground topLevel runningTops => exact (foreground_same s topLevel runningTops).turns
  | msaaFocus pid => exact (movedAwayFromAllBut_same s pid).turns
  | outpostEnded pid => exact outpostEnded_turns (hs pid)
  | spawnFailed pid generation => exact spawnFailed_turns hordered generation hfits
  | stop => cases hjoins

theorem setAlarm_same (s : Schedule J) :
    Same s (@setAlarm J R F s).1 ∧ runsOf (@setAlarm J R F s).2=[] := by
  unfold setAlarm
  split
  · exact ⟨Same.refl s,rfl⟩
  split
  · exact ⟨⟨fun _ => rfl,rfl,rfl,rfl⟩,rfl⟩
  · exact ⟨Same.refl s,rfl⟩

end Verbatim.Listener
