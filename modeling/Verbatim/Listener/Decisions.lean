import Verbatim.Listener.Refinement

namespace Verbatim.Listener

open Framework ReaderRules InFlight Option

variable {J R F : Type}

def abandonedApp (app : App J) (flight : InFlight Reading) (now : Nat) : App J :=
  {app with
    flight
    threaded := false
    abandoned := app.abandoned+1
    limitReached := if abandonedLimit≤app.abandoned+1 && app.limitReached.isNone then some now
      else app.limitReached}

variable (s : Schedule J) (now : Nat) {app : App J} {flight : InFlight Reading}

theorem abandonedApp_move {abandoned : Abandoned Reading} (passed : Bool)
    (hd : app.flight.Decides flight (.abandon abandoned)) :
    Move app.desk (.unwatch::owed abandoned.item.info abandoned.published passed)
      (abandonedApp app flight now).desk := by
  obtain ⟨running,hrun,hnone,hgen,hitem,hpub⟩ := hd
  have hread : app.desk.reading=some (running.request,abandoned.item.info,abandoned.published) := by
    simp [App.desk,underWay,hrun,hitem,hpub]
  have hmove := Move.abandon app.desk _ _ _ passed hread
  have hdesk : (abandonedApp app flight now).desk={app.desk with
      reading := none
      threaded := false
      generation := app.desk.generation+1
      abandoned := app.desk.abandoned+1
      limited := app.desk.limited || abandonedLimit≤app.desk.abandoned+1} := by
    simp only [abandonedApp,App.desk,underWay,hnone,hgen,map_none,Desk.mk.injEq,true_and]
    cases hl : app.limitReached <;> simp
    by_cases hle : abandonedLimit≤app.abandoned+1 <;> simp [hle]
  rw [hdesk]
  exact hmove

variable {pid : Pid}

theorem abandon_eq {s : Schedule J} (app : App J) (flight : InFlight Reading)
    (h : s.apps[pid]?=some {app with flight}) (abandoned : Abandoned Reading) :
    s.abandon now pid abandoned =
      let s' := s.setApp pid (abandonedApp app flight now)
      let started := if !app.queue.isEmpty && app.abandoned+1<abandonedLimit
        then s'.start (R := R) (F := F) pid false else (s',[])
      ((started.1.wakeIdleWaiters (R := R) (F := F)).1,(.unwatch pid::if abandoned.published then []
          else [.outcome pid abandoned.item.info
            (.dropped (Schedule.dropReason abandoned.reason))]) ++
          started.2++started.1.wakeIdleWaiters.2) := by
  simp only [Schedule.abandon,h]
  rfl

/-- `s'` is `s` but for the work in flight of `pid`. -/
structure Flies (s s' : Schedule J) (pid : Pid) (app : App J) (flight : InFlight Reading) :
    Prop where
  before : s.apps[pid]?=some app
  after : s'.apps[pid]?=some {app with flight}
  others : ∀ q, q≠pid → s'.desk q=s.desk q
  fixed : s'.fixed=s.fixed

theorem setApp_flies {s : Schedule J} (flight : InFlight Reading)
    (h : s.apps[pid]?=some app) : Flies s (s.setApp pid {app with flight}) pid app flight :=
  ⟨h,setApp_self s pid _,fun _ hq => desk_setApp_ne s hq _,rfl⟩

theorem abandon_local {s t : Schedule J}
    {abandoned : Abandoned Reading} (h : Flies s t pid app flight) (hs : app.desk.Sound)
    (hd : app.flight.Decides flight (.abandon abandoned)) :
    Local [] s (t.abandon (R := R) (F := F) now pid abandoned) pid := by
  let passed := passesOver (Schedule.dropReason abandoned.reason)
  have hmove := abandonedApp_move now passed hd
  have hsound := move_sound hs hmove
  have hacts : ∀ q, actsOf q (.unwatch pid::if abandoned.published then []
      else [.outcome pid abandoned.item.info (.dropped (Schedule.dropReason abandoned.reason))] :
        List (ScheduleEffect J R F)) =
      if q=pid then .unwatch::owed abandoned.item.info abandoned.published passed else [] := by
    intro q
    by_cases hq : q=pid
    · cases hp : abandoned.published <;> simp [hq,owed,actsOf,ScheduleEffect.act,
        Judged.passedOver,passed]
    · cases hp : abandoned.published <;> simp [hq,actsOf,ScheduleEffect.act,Ne.symm hq]
  rw [abandon_eq now app flight h.after]
  let s' := t.setApp pid (abandonedApp app flight now)
  have hs' : s'.desk pid=(abandonedApp app flight now).desk := desk_setApp_self _ pid _
  have hothers : ∀ q, q≠pid → s'.desk q=s.desk q := fun q hq =>
    (desk_setApp_ne _ hq _).trans (h.others q hq)
  have hchain : Chain Move (s.desk pid)
      ([]++.unwatch::owed abandoned.item.info abandoned.published passed) (s'.desk pid) := by
    rw [desk_of_some h.before,hs']
    exact Chain.single hmove
  have hunspawned : ∀ g, .spawn g∉Act.unwatch::owed abandoned.item.info
      abandoned.published passed := by
    intro g
    cases hp : abandoned.published <;> simp [owed]
  have hgen : (s.desk pid).generation≤(s'.desk pid).generation := by
    obtain ⟨running,-,-,hnext,-⟩ := hd
    rw [desk_of_some h.before,hs']
    simp [abandonedApp,App.desk,hnext]
  have hafter : ∀ {r : Handled J R F}, Local [] s' r pid →
      (r.1.desk pid).Settled → Local [] s (r.1,_++r.2) pid := fun hlocal hsettled =>
    hlocal.after hchain hacts hunspawned (fun _ _ _ => Or.inr List.mem_cons_self) hgen
      (fun _ _ => hsettled) hothers h.fixed
      (by cases abandoned.published <;> simp [ScheduleEffect.setsAlarm])
  split
  next hstart =>
    simp only [Bool.and_eq_true,Bool.not_eq_true',decide_eq_true_eq] at hstart
    refine (hafter (start_local s' pid false (by rw [hs']; exact hsound) (by rw [hs']; rfl)
      (by rw [hs']; simpa [abandonedApp,App.desk] using hstart.1)
      (by rw [hs']; exact hstart.2)) ?_).wake
    intro _ hn
    simp [start_eq (setApp_self _ pid (abandonedApp app flight now)),App.desk,s'] at hn
  next hstay =>
    refine (hafter (local_refl s' pid) ?_).wake
    rw [hs']
    intro hw _
    have hq : app.queue≠[] := by simpa [abandonedApp,App.desk] using hw
    have hge : abandonedLimit≤app.abandoned+1 := by simpa [hq] using hstay
    exact Nat.le_antisymm hsound.atMost hge

theorem decided_local {s t : Schedule J} {decision : Decision Reading}
    (h : Flies s t pid app flight) (hs : app.desk.Sound) (hd : app.flight.Decides flight decision) :
    Local [] s (t.decided (R := R) (F := F) now pid decision) pid := by
  have hquiet : flight.underWay=app.flight.underWay ∧
      flight.generation=app.flight.generation → ∀ (es : List (ScheduleEffect J R F)),
      (∀ q, actsOf q es=[]) → Silent es → Local [] s (t,es) pid := by
    intro hsame es hes hsilent
    refine local_quiet ?_ hes h.fixed hsilent pid
    intro q
    by_cases hq : q=pid
    · rw [hq,desk_of_some h.after,desk_of_some h.before]
      simp [App.desk,hsame.1,hsame.2]
    · exact h.others q hq
  cases decision with
  | nothing => exact hquiet hd [] (fun _ => rfl) (by simp)
  | ask ask =>
    cases ask with
    | judge request window =>
      cases window with
      | none => exact hquiet hd [] (fun _ => rfl) (by simp)
      | some window =>
        exact hquiet hd [.judge pid request window] (fun _ => rfl)
          (by simp [ScheduleEffect.setsAlarm])
    | publish request thenAbandon =>
      exact hquiet hd [.publish pid request thenAbandon] (fun _ => rfl)
        (by simp [ScheduleEffect.setsAlarm])
  | abandon abandoned => exact abandon_local now h hs hd

variable (pid : Pid)

theorem tickApp_local (hs : (s.desk pid).Sound) :
    Local [] s (s.tickApp (R := R) (F := F) now pid) pid := by
  cases h : s.apps[pid]? with
  | none => exact local_of_eq (by simp [Schedule.tickApp,h]) pid
  | some app =>
    rw [desk_of_some h] at hs
    simp only [Schedule.tickApp,h]
    split
    · exact decided_local now (setApp_flies _ h) hs (judge_decides _ now)
    split
    · exact dropWaiting_local s pid (by rwa [desk_of_some h])
    · exact local_refl s pid

variable (request : Request)

theorem learned_local (window : Window) (hs : (s.desk pid).Sound) :
    Local [] s (s.learned (R := R) (F := F) now pid request window) pid := by
  unfold Schedule.learned
  split
  · exact local_refl s pid
  cases h : s.apps[pid]? with
  | none => exact local_refl s pid
  | some app =>
    rw [desk_of_some h] at hs
    exact decided_local now (setApp_flies _ h) hs (learned_decides _ request window now)

theorem armed_local (bound : Nat) (hs : (s.desk pid).Sound) :
    Local (R := R) (F := F) [] s (s.armed pid request bound,[]) pid := by
  cases h : s.apps[pid]? with
  | none => exact local_of_eq (by simp [Schedule.armed,h]) pid
  | some app =>
    rw [desk_of_some h] at hs
    have hlocal := decided_local (R := R) (F := F) 0 (setApp_flies _ h) hs
      (armed_decides app.flight request bound)
    simpa [Schedule.armed,h,Schedule.decided] using hlocal

theorem judged_local (verdict : Option Reason) (hs : (s.desk pid).Sound) :
    Local [] s (s.judged (R := R) (F := F) now pid request verdict) pid := by
  unfold Schedule.judged
  cases h : s.apps[pid]? with
  | none => exact local_refl s pid
  | some app =>
    rw [desk_of_some h] at hs
    exact decided_local now (setApp_flies _ h) hs (judged_decides _ request verdict)

theorem mark_false (f : InFlight Reading) (request : Request) : f.mark request false=f := by
  unfold mark
  cases f.runningOf request <;> rfl

theorem publish_move {request : Request} {running : Running Reading}
    (hrun : app.flight.runningOf request=some running) (hw : running.walk≠.published) :
    Move app.desk [.outcome running.item.info false]
      ({app with flight := app.flight.mark request true} : App J).desk := by
  obtain ⟨hr,hreq⟩ := runningOf_eq_some.mp hrun
  have hread : app.desk.reading=some (request,running.item.info,false) := by
    simp [App.desk,underWay,hr,hreq,hw]
  have hdesk : ({app with flight := app.flight.mark request true} : App J).desk =
      {app.desk with reading := some (request,running.item.info,true)} := by
    simp [App.desk,mark,hrun,setRunning,underWay,hreq]
  rw [hdesk]
  exact .publish app.desk request running.item.info hread

def acceptedInfo (app : App J) (request : Request) : Option Meta :=
  (app.flight.running.filter fun running =>
    app.flight.accepts running.request && running.request=request).map (·.item.info)

theorem acceptedInfo_eq_some {request : Request} {info : Meta}
    (h : acceptedInfo app request=some info) : ∃ running,
      app.flight.runningOf request=some running ∧ running.walk≠.published ∧
      running.item.info=info := by
  simp only [acceptedInfo,map_eq_some_iff,filter_eq_some_iff,Bool.and_eq_true,
    decide_eq_true_eq] at h
  obtain ⟨running,⟨hr,hacc,hreq⟩,hinfo⟩ := h
  refine ⟨running,runningOf_eq_some.mpr ⟨hr,hreq⟩,?_,hinfo⟩
  simpa [accepts,hr] using hacc

theorem published_local (read : Option R) (thenAbandon : Option Reason) (hs : (s.desk pid).Sound) :
    Local [] s (s.published (F := F) now pid request read thenAbandon) pid := by
  cases h : s.apps[pid]? with
  | none => exact local_of_eq (by simp [Schedule.published,h]) pid
  | some app =>
    rw [desk_of_some h] at hs
    let flown := fun got => app.flight.published request got thenAbandon now
    have hdecides := fun got => app.flight.published_decides request got thenAbandon now
    -- Nothing is published: the answer is only judged.
    have hnot : ∀ r, r=((s.setApp pid {app with flight := (flown false).1}).decided
        (R := R) (F := F) now pid (flown false).2) → Local [] s r pid := by
      intro r hr
      rw [hr]
      have hd := hdecides false
      rw [mark_false] at hd
      exact decided_local now (setApp_flies _ h) hs hd
    cases hi : acceptedInfo app request with
    | none =>
      refine hnot _ ?_
      simp only [Schedule.published,h]
      rw [show Option.map _ (Option.filter _ app.flight.running)=none from hi]
      rfl
    | some info =>
      cases read with
      | none =>
        refine hnot _ ?_
        simp only [Schedule.published,h]
        rw [show Option.map _ (Option.filter _ app.flight.running)=some info from hi]
        rfl
      | some read =>
        obtain ⟨running,hrun,hw,hinfo⟩ := acceptedInfo_eq_some hi
        have hmove := publish_move hrun hw
        rw [hinfo] at hmove
        let marked := {app with flight := app.flight.mark request true}
        let m := s.setApp pid marked
        let t := ((s.setApp pid {app with flight := (flown true).1}).wakeIdleWaiters
          (R := R) (F := F))
        have hflies : Flies m t.1 pid marked (flown true).1 :=
          ⟨setApp_self s pid marked,setApp_self s pid _,fun q hq =>
            (desk_setApp_ne s hq _).trans (desk_setApp_ne s hq _).symm,rfl⟩
        have hlocal := decided_local (R := R) (F := F) now hflies (move_sound hs hmove)
          (hdecides true)
        have hr : s.published now pid request (some read) thenAbandon =
            ((@t.1.decided J R F now pid (flown true).2).1,
              [.outcome pid info (.read read)]++t.2++(t.1.decided now pid (flown true).2).2) := by
          simp only [Schedule.published,h]
          rw [show Option.map _ (Option.filter _ app.flight.running)=some info from hi]
          rfl
        have hm : m.desk pid=marked.desk := desk_setApp_self s pid marked
        rw [hr]
        have hsame : (m.desk pid).generation=(s.desk pid).generation := by
          rw [hm,desk_of_some h]
          simp [marked,App.desk,mark,hrun,setRunning]
        have hchain : Chain Move (s.desk pid) ([]++[.outcome info false]) (m.desk pid) := by
          rw [hm,desk_of_some h]
          exact Chain.single hmove
        refine hlocal.after hchain (fun q => ?_) (by simp) (fun _ _ ht => Or.inl ?_)
          (Nat.le_of_eq hsame.symm) (fun hst hset => hlocal.settles hst ?_)
          (fun q hq => desk_setApp_ne s hq _) rfl (by simp [t,ScheduleEffect.setsAlarm])
        · by_cases hq : q=pid
          · simp [hq,t,actsOf_cons,ScheduleEffect.act,Judged.passedOver]
          · simp [hq,t,actsOf_cons,ScheduleEffect.act,Ne.symm hq]
        · rw [hm] at ht
          rw [desk_of_some h]
          exact ht
        · rw [hm]
          rw [desk_of_some h] at hset
          exact hset

end Verbatim.Listener
