import Verbatim.Listener.Idle

namespace Verbatim.Listener

open Framework ReaderRules List Schedule Nat

variable {J R F : Type} {s s' : Schedule J} {runs runs' : List Nat}

section Registry

def ran (log : Log J R F) : List Nat := log.flatMap fun entry => runsOf entry.effects

/-- Who waits for what, as a run's inputs say it: each waiter that came before the stop, with
the events pushed before it. -/
structure Registry where
  pushed : List (Pid × Nat)
  stopped : Bool
  waiters : List (List (Pid × Nat) × Nat)

def Registry.see (r : Registry) : ScheduleInput J R F → Registry
  | .push pid info _ _ _ _ => {r with pushed := r.pushed++[(pid,info.marker)]}
  | .whenIdle waiter =>
      if r.stopped then r else {r with waiters := r.waiters++[(r.pushed,waiter)]}
  | .stop => {r with stopped := true}
  | _ => r

def registry (log : Log J R F) : Registry :=
  log.foldl (fun r entry => r.see entry.input) ⟨[],false,[]⟩

variable {log : Log J R F} {deadline : Nat}

/-- What holds after every run of who waits and for what: `r` as the inputs say it, and the
waiters `ran` before. -/
structure Waits (r : Registry) (ran : List Nat) (s : Schedule J) : Prop where
  ordered : Ordered s
  pushed : ∀ pid, ∀ event∈s.opened pid, ∃ i, event.1=i+1 ∧ r.pushed[i]?=some (pid,event.2.marker)
  queued : s.queued≤r.pushed.length
  early : ∀ waiter∈r.waiters, waiter.1.length ≤ s.queued ∧ waiter.1 <+: r.pushed
  waited : ∃ done, r.waiters.map (fun waiter => (waiter.1.length,waiter.2)) =
    done++s.idleWaiters ∧ done.map (·.2)=ran ∧ ∀ waiter∈done, Due s waiter.1

variable {r : Registry} {ran' : List Nat}

theorem Waits.turns (h : Waits r ran' s) (hturns : Turns s s' runs) : Waits r (ran'++runs) s' where
  ordered := hturns.ordered h.ordered
  pushed pid event hmem := h.pushed pid event ((hturns.opened pid).subset hmem)
  queued := hturns.queued ▸ h.queued
  early := hturns.queued ▸ h.early
  waited := by
    obtain ⟨done,hwaiters,hran,hdue⟩ := h.waited
    obtain ⟨now,hnow,hruns,hdueNow⟩ := hturns.waited
    refine ⟨done++now,?_,?_,fun waiter hmem => ?_⟩
    · rw [hwaiters,hnow,append_assoc]
    · rw [map_append,hran,hruns]
    obtain hmem | hmem := mem_append.mp hmem
    · exact (hdue waiter hmem).of_sublist hturns.opened
    · exact hdueNow waiter hmem

theorem Waits.refused (h : Waits r ran' s) (event : Pid × Nat) :
    Waits {r with pushed := r.pushed++[event]} ran' s where
  ordered := h.ordered
  pushed pid event hmem := by
    obtain ⟨i,hplace,hi⟩ := h.pushed pid event hmem
    refine ⟨i,hplace,?_⟩
    rw [getElem?_append_left (List.getElem?_eq_some_iff.mp hi).1]
    exact hi
  queued := by
    have := h.queued
    simp only [length_append]
    omega
  early waiter hmem := ⟨(h.early waiter hmem).1,(h.early waiter hmem).2.trans (prefix_append _ _)⟩
  waited := h.waited

variable {info : Meta}

theorem Adds.mem {pid q : Pid} (h : Adds s s' pid info) {event : Nat × Meta}
    (hmem : event∈s'.opened q) : event∈s.opened q ∨ (q=pid ∧ event=(s.queued+1,info)) := by
  by_cases hq : q=pid
  · subst hq
    rw [h.own] at hmem
    obtain hmem | hmem := mem_append.mp hmem
    · exact Or.inl hmem
    · exact Or.inr ⟨rfl,mem_singleton.mp hmem⟩
  · rw [h.others q hq] at hmem
    exact Or.inl hmem

variable {pid : Pid}

theorem Adds.due {before : Nat} (h : Adds s s' pid info)
    (hbefore : before ≤ s.queued) (hdue : Due s before) : Due s' before := by
  intro q event hmem
  obtain hmem | ⟨-,rfl⟩ := h.mem hmem
  · exact hdue q event hmem
  · exact lt_succ_of_le hbefore

theorem Adds.idle (h : Adds s s' pid info) (hidle : Idle s) : Idle s' := by
  intro waiter hmem hdue
  refine hidle waiter (h.waiters ▸ hmem) fun q event hopen => hdue q event ?_
  by_cases hq : q=pid
  · rw [hq] at hopen ⊢
    rw [h.own]
    exact mem_append_left _ hopen
  · rwa [h.others q hq]

theorem Adds.ordered (h : Adds s s' pid info) (hordered : Ordered s) : Ordered s' where
  places q := by
    by_cases hq : q=pid
    · rw [hq,h.own,map_append,pairwise_append]
      refine ⟨hordered.places pid,pairwise_singleton _ _,fun place hplace last hlast => ?_⟩
      obtain ⟨event,hevent,rfl⟩ := mem_map.mp hplace
      rw [mem_singleton.mp hlast]
      exact lt_succ_of_le (hordered.placed pid event hevent)
    · rw [h.others q hq]
      exact hordered.places q
  placed q event hmem := by
    rw [h.queued]
    obtain hmem | ⟨-,rfl⟩ := h.mem hmem
    · exact le_succ_of_le (hordered.placed q event hmem)
    · exact le_refl _
  waiters := h.waiters ▸ hordered.waiters
  waited waiter hmem := by
    rw [h.queued]
    exact le_succ_of_le (hordered.waited waiter (h.waiters ▸ hmem))

theorem Waits.adds (h : Waits r ran' s)
    (hqueued : s.queued=r.pushed.length) (hadds : Adds s s' pid info) :
    Waits {r with pushed := r.pushed++[(pid,info.marker)]} ran' s' where
  ordered := hadds.ordered h.ordered
  pushed q event hmem := by
    obtain hmem | ⟨rfl,rfl⟩ := hadds.mem hmem
    · exact (h.refused (pid,info.marker)).pushed q event hmem
    refine ⟨s.queued,rfl,?_⟩
    rw [hqueued]
    exact getElem?_concat_length
  queued := by
    rw [hadds.queued,hqueued,length_append]
    exact le_refl _
  early waiter hmem := by
    obtain ⟨hle,hfirst⟩ := h.early waiter hmem
    rw [hadds.queued]
    exact ⟨le_succ_of_le hle,hfirst.trans (prefix_append _ _)⟩
  waited := by
    obtain ⟨done,hwaiters,hran,hdue⟩ := h.waited
    refine ⟨done,hadds.waiters ▸ hwaiters,hran,fun waiter hmem => ?_⟩
    have hmem' : waiter∈r.waiters.map fun waiter => (waiter.1.length,waiter.2) := by
      rw [hwaiters]
      exact mem_append_left _ hmem
    obtain ⟨registered,hreg,rfl⟩ := mem_map.mp hmem'
    exact hadds.due (h.early registered hreg).1 (hdue _ hmem)

theorem Waits.joins (h : Waits r ran' s) (hqueued : s.queued=r.pushed.length) (waiter : Nat) :
    Waits {r with waiters := r.waiters++[(r.pushed,waiter)]} ran'
      {s with idleWaiters := s.idleWaiters++[(s.queued,waiter)]} where
  ordered := by
    refine ⟨h.ordered.places,h.ordered.placed,?_,fun other hmem => ?_⟩
    · rw [map_append,pairwise_append]
      refine ⟨h.ordered.waiters,pairwise_singleton _ _,fun before hbefore last hlast => ?_⟩
      obtain ⟨other,hother,rfl⟩ := mem_map.mp hbefore
      rw [mem_singleton.mp hlast]
      exact h.ordered.waited other hother
    · obtain hmem | hmem := mem_append.mp hmem
      · exact h.ordered.waited other hmem
      · rw [mem_singleton.mp hmem]
  pushed := h.pushed
  queued := h.queued
  early other hmem := by
    obtain hmem | hmem := mem_append.mp hmem
    · exact h.early other hmem
    · rw [mem_singleton.mp hmem]
      exact ⟨le_of_eq hqueued.symm,prefix_refl _⟩
  waited := by
    obtain ⟨done,hwaiters,hran,hdue⟩ := h.waited
    refine ⟨done,?_,hran,hdue⟩
    rw [map_append,hwaiters,append_assoc,hqueued]
    rfl

theorem push_waits (h : Waits r ran' s) (hqueued : s.queued=r.pushed.length) (now : Nat)
    (pid : Pid) (info : Meta) (job : J) (kind : FocusEvent) (key : Option (List Int))
    (window : RuleWindow) (hidle : Idle s) (hstop : s.stopping=false) :
    Waits {r with pushed := r.pushed++[(pid,info.marker)]}
        (ran'++runsOf (@push J R F s now pid info job kind key window).2)
        (@push J R F s now pid info job kind key window).1 ∧
      Idle (@push J R F s now pid info job kind key window).1 ∧
      (@push J R F s now pid info job kind key window).1.queued=s.queued+1 ∧
      (@push J R F s now pid info job kind key window).1.stopping=s.stopping := by
  have hreplaced := replaceWaiting_turns (R := R) (F := F) h.ordered pid kind key
  have hadds := enqueue_adds info job kind key window
    (@replaceWaiting_holds J R F s pid kind key)
  have hwaits := (h.turns hreplaced).adds (hreplaced.queued.trans hqueued) hadds
  have hattended := attend_turns (R := R) (F := F) now hwaits.ordered pid
  simp only [push,hstop,Bool.false_eq_true,if_false,runsOf_append,← append_assoc]
  exact ⟨hwaits.turns hattended,hattended.idle (hadds.idle (hreplaced.idle hidle)),
    hattended.queued.trans (hadds.queued.trans (by rw [hreplaced.queued])),
    hattended.stopping.trans (hadds.stopping.trans (hreplaced.stopping.trans hstop))⟩

theorem whenIdle_waits (h : Waits r ran' s) (hqueued : s.queued=r.pushed.length) (waiter : Nat) :
    Waits {r with waiters := r.waiters++[(r.pushed,waiter)]}
        (ran'++runsOf ({s with idleWaiters := s.idleWaiters++[(s.queued,waiter)]
          }.wakeIdleWaiters (R := R) (F := F)).2)
        ({s with idleWaiters := s.idleWaiters++[(s.queued,waiter)]}.wakeIdleWaiters
          (R := R) (F := F)).1 ∧
      Idle ({s with idleWaiters := s.idleWaiters++[(s.queued,waiter)]}.wakeIdleWaiters
          (R := R) (F := F)).1 := by
  have hjoined := h.joins hqueued waiter
  exact ⟨hjoined.turns ((Same.refl _).drops.wakes hjoined.ordered),
    wakeIdleWaiters_idle hjoined.ordered⟩

/-- The registry `r`, kept by the schedule. -/
structure Registers (r : Registry) (ran : List Nat) (s : Schedule J) : Prop where
  waits : Waits r ran s
  idle : Idle s
  stopped : r.stopped=s.stopping
  queued : s.stopping=false → s.queued=r.pushed.length

theorem registry_snoc (log : Log J R F) (entry : Entry J R F) :
    registry (log++[entry])=(registry log).see entry.input := by
  simp [registry]

theorem ran_snoc (log : Log J R F) (entry : Entry J R F) :
    ran (log++[entry])=ran log++runsOf entry.effects := by
  simp [ran]

theorem Registers.turns (h : Registers r ran' s) (hturns : Turns s s' runs) :
    Registers r (ran'++runs) s' where
  waits := h.waits.turns hturns
  idle := hturns.idle h.idle
  stopped := h.stopped.trans hturns.stopping.symm
  queued hstop := hturns.queued.trans (h.queued (hturns.stopping ▸ hstop))

theorem Registers.handle (h : Registers r ran' s) (input : ScheduleInput J R F) (now : Nat)
    (hkept : Kept deadline log s) (ha : Allows log input) :
    Registers (r.see input) (ran'++runsOf (s.handle input now).2) (s.handle input now).1 := by
  cases hjoins : input.joins with
  | false =>
    have hsee : r.see input=r := by cases input <;> first | rfl | cases hjoins
    rw [hsee]
    exact h.turns
      (handle_turns input now hjoins hkept.sound hkept.holds (hkept.fits ha) h.waits.ordered)
  | true =>
    cases input with
    | push pid info job kind key window =>
      cases hstop : s.stopping with
      | true =>
        have hhandle : s.handle (.push pid info job kind key window) now =
            (s,([.outcome pid info (.dropped shuttingDown)] : List (ScheduleEffect J R F))) := by
          simp [Schedule.handle,Schedule.push,hstop]
        rw [hhandle]
        refine ⟨?_,h.idle,h.stopped,fun hgo => absurd hgo (by simp [hstop])⟩
        exact (append_nil ran').symm ▸ h.waits.refused (pid,info.marker)
      | false =>
        obtain ⟨hwaits,hidle,hqueued,hgo⟩ := push_waits h.waits
          (h.queued hstop) now pid info job kind key window h.idle hstop
        refine ⟨hwaits,hidle,h.stopped.trans hgo.symm,fun _ => hqueued.trans ?_⟩
        rw [h.queued hstop]
        simp [Registry.see]
    | whenIdle waiter =>
      cases hstop : s.stopping with
      | true =>
        have hhandle : s.handle (.whenIdle waiter) now=(s,([] : List (ScheduleEffect J R F))) := by
          simp [Schedule.handle,hstop]
        have hsee : r.see (.whenIdle waiter : ScheduleInput J R F)=r := by
          simp [Registry.see,h.stopped,hstop]
        rw [hhandle,hsee]
        exact (append_nil ran').symm ▸ h
      | false =>
        have hhandle : @s.handle J R F (.whenIdle waiter) now =
            {s with idleWaiters := s.idleWaiters++[(s.queued,waiter)]}.wakeIdleWaiters := by
          simp [Schedule.handle,hstop]
        obtain ⟨hwaits,hidle⟩ := whenIdle_waits h.waits (h.queued hstop) waiter
        have hsee : r.see (.whenIdle waiter : ScheduleInput J R F) =
            {r with waiters := r.waiters++[(r.pushed,waiter)]} := by
          simp [Registry.see,h.stopped,hstop]
        rw [hhandle]
        exact ⟨hsee ▸ hwaits,hidle,by rw [hsee]; exact h.stopped,
          fun _ => by rw [hsee]; exact h.queued hstop⟩
    | stop =>
      refine ⟨?_,h.idle,rfl,fun hgo => Bool.noConfusion hgo⟩
      have hwaits := h.waits
      exact (append_nil ran').symm ▸ ⟨⟨hwaits.ordered.places,hwaits.ordered.placed,
        hwaits.ordered.waiters,hwaits.ordered.waited⟩,hwaits.pushed,hwaits.queued,
        hwaits.early,hwaits.waited⟩
    | _ => cases hjoins

theorem registers_new (deadline : Nat) : Registers ⟨[],false,[]⟩ [] (new (J := J) deadline) := by
  have hordered : Ordered (new (J := J) deadline) := by
    refine ⟨fun pid => ?_,fun pid event hmem => ?_,List.Pairwise.nil,
      fun _ hmem => absurd hmem not_mem_nil⟩
    · exact List.Pairwise.nil
    · cases hmem
  refine ⟨⟨hordered,fun pid event hmem => ?_,le_refl _,(forall_mem_nil _),
    [],rfl,rfl,(forall_mem_nil _)⟩,(forall_mem_nil _),rfl,fun _ => rfl⟩
  cases hmem

theorem registry_pushed (log : Log J R F) : (registry log).pushed=pushes log := by
  induction log using reverseRecOn with
  | nil => rfl
  | append_singleton log entry ih =>
    rw [registry_snoc,pushes_snoc,← ih]
    cases hinput : entry.input with
    | push pid info job kind key window => simp [Registry.see,pushes,hinput]
    | whenIdle waiter =>
      simp only [Registry.see,pushes,hinput,filterMap_cons,filterMap_nil,append_nil]
      split <;> rfl
    | _ => simp [Registry.see,pushes,hinput]

theorem run_registers (h : Run deadline log s) : Registers (registry log) (ran log) s := by
  induction h with
  | start => exact registers_new deadline
  | @step log s input now hrun ha ih =>
    have halarm := @setAlarm_same J R F (s.handle input now).1
    have hstep := (ih.handle input now (run_kept hrun) ha).turns halarm.1.turns
    rw [append_nil] at hstep
    rw [registry_snoc,ran_snoc]
    simpa only [step,runsOf_append,halarm.2,append_nil] using hstep

end Registry

section Outcomes

variable {log : Log J R F} {deadline : Nat}

theorem opened_markers (s : Schedule J) (pid : Pid) (marker : Nat) :
    (∃ event∈s.opened pid, event.2.marker=marker) ↔
      marker∈waitingMarkers s pid ∨ marker∈readingMarkers s pid := by
  cases happ : s.apps[pid]? with
  | none => simp [opened_of_none happ,waitingMarkers,readingMarkers,happ]
  | some app =>
    rw [opened_of_some happ]
    cases hrun : app.flight.running with
    | none =>
      simp [App.opened,waitingMarkers,readingMarkers,happ,hrun,InFlight.underWay]
    | some running =>
      by_cases hwalk : running.walk=.published
      · simp [App.opened,waitingMarkers,readingMarkers,happ,hrun,InFlight.underWay,hwalk]
      · simp [App.opened,waitingMarkers,readingMarkers,happ,hrun,InFlight.underWay,hwalk]
        rw [or_comm,@eq_comm _ marker]

theorem outcome_iff_not_open (h : Run deadline log s) {marker : Nat}
    (hpushed : (pid,marker)∈pushes log) :
    (pid,marker)∈outcomes log ↔ ¬∃ event∈s.opened pid, event.2.marker=marker := by
  have hcount := places_eq_pushes h pid marker
  rw [count_eq_one_of_mem (List.Nodup.of_map _ (pushes_nodup h)) hpushed,places] at hcount
  rw [opened_markers,not_or,← count_eq_zero,← count_eq_zero,← count_pos_iff]
  omega

theorem due_iff_outcomes (h : Run deadline log s) {events : List (Pid × Nat)}
    (hevents : events <+: pushes log) :
    Due s events.length ↔ ∀ event∈events, event∈outcomes log := by
  have hregisters := run_registers h
  have hnodup : (pushes log).Nodup := List.Nodup.of_map _ (pushes_nodup h)
  have hearlier : ∀ i, i<events.length → (pushes log)[i]?=events[i]? := by
    obtain ⟨later,hlater⟩ := hevents
    intro i hi
    rw [← hlater,getElem?_append_left hi]
  constructor
  · rintro hdue ⟨pid,marker⟩ hmem
    refine (outcome_iff_not_open h (hevents.subset hmem)).mpr ?_
    rintro ⟨event,hopen,rfl⟩
    obtain ⟨i,hplace,hi⟩ := hregisters.waits.pushed pid event hopen
    rw [registry_pushed] at hi
    -- The event stands at one place of the pushes, among those before the waiter.
    obtain ⟨k,hk,hkth⟩ := getElem_of_mem hmem
    have hkth : (pushes log)[k]?=some (pid,event.2.marker) := by
      rw [hearlier k hk,getElem?_eq_getElem hk,hkth]
    have hsame : i=k := (getElem?_inj (List.getElem?_eq_some_iff.mp hi).1 hnodup).mp
      (hi.trans hkth.symm)
    have hlate := hdue pid event hopen
    omega
  · intro hall pid event hopen
    obtain ⟨i,hplace,hi⟩ := hregisters.waits.pushed pid event hopen
    rw [registry_pushed] at hi
    by_contra hearly
    have hlt : i<events.length := by omega
    have hmem : (pid,event.2.marker)∈events := by
      rw [hearlier i hlt] at hi
      exact mem_of_getElem? hi
    exact (outcome_iff_not_open h (hevents.subset hmem)).mp (hall _ hmem) ⟨event,hopen,rfl⟩

/-- The waiters in order are those that ran and those that wait, and one has run exactly when
all the events pushed before it have their outcome. -/
theorem ran_iff_outcomes (h : Run deadline log s) :
    ran log++s.idleWaiters.map (·.2)=(registry log).waiters.map (·.2) ∧
      ∀ (k : Nat) (events : List (Pid × Nat)) (waiter : Nat),
        (registry log).waiters[k]?=some (events,waiter) →
        (k<(ran log).length ↔ ∀ event∈events, event∈outcomes log) := by
  have hregisters := run_registers h
  obtain ⟨done,hwaiters,hran,hdue⟩ := hregisters.waits.waited
  constructor
  · rw [← hran,← map_append,← hwaiters,map_map]
    rfl
  intro k events waiter hk
  have hkth : (done++s.idleWaiters)[k]?=some (events.length,waiter) := by
    rw [← hwaiters,getElem?_map,hk]
    rfl
  have hevents := (hregisters.waits.early _ (mem_of_getElem? hk)).2
  rw [registry_pushed] at hevents
  rw [← due_iff_outcomes h hevents,← hran,length_map]
  constructor
  · intro hlt
    rw [getElem?_append_left hlt] at hkth
    exact hdue _ (mem_of_getElem? hkth)
  · intro hnow
    by_contra hlate
    rw [getElem?_append_right (Nat.le_of_not_lt hlate)] at hkth
    exact hregisters.idle _ (mem_of_getElem? hkth) hnow

theorem see_waiters (r : Registry) (input : ScheduleInput J R F) :
    r.waiters <+: (r.see input).waiters := by
  cases input with
  | whenIdle waiter =>
    simp only [Registry.see]
    split
    · exact prefix_refl _
    · exact prefix_append _ _
  | _ => exact prefix_refl _

/-- Over every run, the waiters registered before the stop run in the order they registered, each
at most once: after each step those that ran are the first of them and the others wait, and a
step, the one that registers it included, runs a waiter exactly when it is the first after
which every event pushed before the waiter has its outcome. -/
theorem waiters_run_once_due (h : Run deadline log s) :
    ran log++s.idleWaiters.map (·.2)=(registry log).waiters.map (·.2) ∧
    (∀ (k : Nat) (events : List (Pid × Nat)) (waiter : Nat),
      (registry log).waiters[k]?=some (events,waiter) →
      (k<(ran log).length ↔ ∀ event∈events, event∈outcomes log)) ∧
    ∀ (input : ScheduleInput J R F) (now : Nat), Allows log input →
      ∀ (k : Nat) (events : List (Pid × Nat)) (waiter : Nat),
        (registry (log++[⟨input,now,(s.step input now).2⟩])).waiters[k]?=some (events,waiter) →
        ((ran log).length≤k ∧ k<(ran log).length+(runsOf (s.step input now).2).length ↔
          (∀ event∈events,event∈outcomes (log++[⟨input,now,(s.step input now).2⟩])) ∧
          (k<(registry log).waiters.length → ¬∀ event∈events, event∈outcomes log)) := by
  obtain ⟨horder,hbefore⟩ := ran_iff_outcomes h
  refine ⟨horder,hbefore,fun input now ha k events waiter hk => ?_⟩
  have hafter := (ran_iff_outcomes (.step input now h ha)).2 k events waiter hk
  rw [ran_snoc,length_append] at hafter
  rw [hafter,and_comm]
  refine and_congr_right fun _ => ?_
  have hlength := congrArg List.length horder
  simp only [length_append,length_map] at hlength
  rw [registry_snoc] at hk
  obtain ⟨later,hlater⟩ := see_waiters (registry log) input
  constructor
  · intro hle hold
    have hkold : (registry log).waiters[k]?=some (events,waiter) := by
      rw [← hlater,getElem?_append_left hold] at hk
      exact hk
    rw [← hbefore k events waiter hkold]
    exact Nat.not_lt.mpr hle
  · intro hopen
    by_cases hold : k<(registry log).waiters.length
    · have hkold : (registry log).waiters[k]?=some (events,waiter) := by
        rw [← hlater,getElem?_append_left hold] at hk
        exact hk
      have hnot := hopen hold
      rw [← hbefore k events waiter hkold] at hnot
      exact Nat.le_of_not_lt hnot
    · omega

def publishedRead : List (ScheduleInput Unit Unit Unit × Nat) :=
  [(.push 7 ⟨1,.focus,0⟩ () .focus none .unknown,5),(.next 7 1,6),(.armed 7 ⟨1,1⟩ 9,7),
    (.whenIdle 4,8),(.tick,10)]

/-- The publication runs the waiter, while the read is under way. -/
theorem publishedRead_runs_waiter :
    ∃ log s, replay [] (new 2000000) publishedRead=some (log,s) ∧
      s.idleWaiters=[(1,4)] ∧ ran log=[] ∧ readingMarkers s 7=[1] ∧
      0<(runsOf (s.step (F := Unit) (.published 7 ⟨1,1⟩ (some ()) none) 11).2).length := by
  have heval : (replay [] (new 2000000) publishedRead).any (fun (log,s) =>
      decide (s.idleWaiters=[(1,4)] ∧ ran log=[] ∧ readingMarkers s 7=[1] ∧
        outcomes log=[] ∧ (registry log).waiters=[([(7,1)],4)] ∧
        Allows log (.published 7 ⟨1,1⟩ (some ()) none) ∧
        (7,1)∈(s.step (F := Unit) (.published 7 ⟨1,1⟩ (some ()) none)
          11).2.filterMap outcomeOf))=true := by decide +kernel
  obtain ⟨⟨log,s⟩,hr,hfacts⟩ := (Option.any_eq_true _ _).mp heval
  simp only [decide_eq_true_eq] at hfacts
  obtain ⟨hidle,hran,hreading,hnone,hwaiters,ha,hout⟩ := hfacts
  refine ⟨log,s,hr,hidle,hran,hreading,?_⟩
  have hruns := ((waiters_run_once_due (replay_run _ .start hr)).2.2 _ 11 ha 0 [(7,1)] 4
    (by rw [registry_snoc]; simp [Registry.see,hwaiters])).mpr ⟨?_,fun _ hall => ?_⟩
  · simpa [hran] using hruns.2
  · intro event hmem
    rw [mem_singleton.mp hmem]
    simp only [outcomes,flatMap_append,mem_append]
    exact Or.inr (by simpa using hout)
  · have hmem := hall (7,1) (mem_singleton_self _)
    rw [hnone] at hmem
    cases hmem

end Outcomes

end Verbatim.Listener
