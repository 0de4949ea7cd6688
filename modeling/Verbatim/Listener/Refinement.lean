import Verbatim.Listener.Desk

namespace Verbatim.Listener

open Framework ReaderRules List Schedule ScheduleEffect Queued Chain Option Nat

variable {J R F : Type}

def App.desk (app : App J) : Desk where
  waiting := app.queue.map info
  threaded := app.threaded
  generation := app.flight.generation
  reading := app.flight.underWay.map (fun (request,item,published) =>
    (request,item.info,published))
  abandoned := app.abandoned
  limited := app.limitReached.isSome

def Schedule.desk (s : Schedule J) (pid : Pid) : Desk := (s.apps[pid]?).elim Desk.new App.desk

/-- The reasons an event is passed over for: a newer one replaced it, or it came after the
stop. -/
def passesOver (reason : String) : Bool := reason=replacedByNewer || reason=shuttingDown

def Judged.passedOver : Judged R F → Bool
  | .dropped reason => passesOver reason
  | _ => false

def ScheduleEffect.act (pid : Pid) : ScheduleEffect J R F → Option Act
  | .outcome owner info judged =>
      if owner=pid then some (.outcome info judged.passedOver) else none
  | .spawn owner generation _ => if owner=pid then some (.spawn generation) else none
  | .unwatch owner => if owner=pid then some .unwatch else none
  | .forget owner => if owner=pid then some .forget else none
  | .job work => if work.pid=pid then some (.job work.request work.info) else none
  | _ => none

def actsOf (pid : Pid) (effects : List (ScheduleEffect J R F)) : List Act :=
  effects.filterMap (act pid)

def ScheduleInput.given (pid : Pid) : ScheduleInput J R F → List Act
  | .push owner info _ _ _ _ => if owner=pid then [.queued info] else []
  | .returned owner request info _ _ => if owner=pid then [.returned request info] else []
  | _ => []

section Projections

@[simp] theorem actsOf_nil (pid : Pid) : actsOf pid ([] : List (ScheduleEffect J R F))=[] := rfl

@[simp] theorem actsOf_append (pid : Pid) (es es' : List (ScheduleEffect J R F)) :
    actsOf pid (es++es')=actsOf pid es++actsOf pid es' := filterMap_append

theorem actsOf_cons (pid : Pid) (e : ScheduleEffect J R F) (es : List (ScheduleEffect J R F)) :
    actsOf pid (e::es)=(e.act pid).toList++actsOf pid es := by
  cases h : e.act pid <;> simp [actsOf,h]

@[simp] theorem actsOf_dropAll (pid : Pid) (events : List (Queued J)) (reason : String) :
    actsOf pid (@dropAll J R F pid events reason) =
      events.map fun queued => .outcome queued.info (passesOver reason) := by
  induction events with
  | nil => rfl
  | cons w events ih =>
    rw [dropAll,map_cons,actsOf_cons,← dropAll,ih]
    simp [act,Judged.passedOver]

theorem actsOf_dropAll_ne {pid q : Pid} (h : q≠pid) (events : List (Queued J))
    (reason : String) : actsOf q (@dropAll J R F pid events reason)=[] := by
  induction events with
  | nil => rfl
  | cons w events ih =>
    rw [dropAll,map_cons,actsOf_cons,← dropAll,ih]
    simp [act,h.symm]

variable {app : App J}

theorem desk_of_some {s : Schedule J} {pid : Pid} (h : s.apps[pid]?=some app) :
    s.desk pid=app.desk := by
  simp [desk,h]

theorem desk_of_none {s : Schedule J} {pid : Pid} (h : s.apps[pid]?=none) :
    s.desk pid=Desk.new := by
  simp [desk,h]

theorem desk_congr {s s' : Schedule J} (h : s'.apps=s.apps) (pid : Pid) :
    s'.desk pid=s.desk pid := by
  simp [desk,h]

variable (s : Schedule J)

@[simp] theorem setApp_self (pid : Pid) (app : App J) : (s.setApp pid app).apps[pid]?=some app := by
  simp [setApp]

theorem setApp_ne {pid q : Pid} (h : q≠pid) (app : App J) :
    (s.setApp pid app).apps[q]?=s.apps[q]? := by
  simp [setApp,Std.ExtTreeMap.getElem?_insert,h.symm]

@[simp] theorem desk_setApp_self (pid : Pid) (app : App J) :
    (s.setApp pid app).desk pid=app.desk := by
  simp [desk]

theorem desk_setApp_ne {pid q : Pid} (h : q≠pid) (app : App J) :
    (s.setApp pid app).desk q=s.desk q := by
  simp [desk,setApp_ne s h]

@[simp] theorem desk_wakeIdleWaiters (q : Pid) :
    (@wakeIdleWaiters J R F s).1.desk q=s.desk q := rfl

@[simp] theorem actsOf_wakeIdleWaiters (q : Pid) :
    actsOf q (@wakeIdleWaiters J R F s).2=[] := by
  simp [wakeIdleWaiters,actsOf,filterMap_map,act,Function.comp_def]

theorem desk_mapApps (f : Pid → App J → App J) (h : ∀ pid app, (f pid app).desk=app.desk)
    (q : Pid) :
    ({s with apps := s.apps.map f} : Schedule J).desk q=s.desk q := by
  cases hq : s.apps[q]? with
  | none => simp [desk,hq]
  | some app => simp [desk,hq,h]

@[simp] theorem desk_movedAwayFromAllBut (pid q : Pid) :
    (s.movedAwayFromAllBut pid).desk q=s.desk q := by
  refine desk_mapApps s _ ?_ q
  intro owner app
  split <;> rfl

@[simp] theorem desk_foreground (topLevel : Option Window)
    (runningTops : List (Pid × Option Window)) (q : Pid) :
    (s.foreground topLevel runningTops).desk q=s.desk q := by
  refine desk_mapApps s _ ?_ q
  intro owner app
  dsimp only
  split <;> rfl

end Projections

/-- Until the stop, events wait with no thread in charge only at the limit. -/
def Desk.Settled (d : Desk) : Prop := d.waiting≠[] → d.threaded=false → d.abandoned=abandonedLimit

/-- A thread is put in charge by the last of `acts`, with none in charge then, an event
waiting and the abandoned threads below the limit. -/
def SpawnsLast (d : Desk) (acts : List Act) (d' : Desk) : Prop :=
  ∀ g, .spawn g∈acts → ∃ before, acts=before++[.spawn g] ∧
    (∀ g', .spawn g'∉before) ∧ (d.threaded=false ∨ .unwatch∈before) ∧
    d.generation<g ∧ d'.threaded=true ∧ d'.generation=g ∧ d'.reading=none ∧ d'.waiting≠[] ∧
    d'.abandoned<abandonedLimit

/-- What no transition of one application changes. -/
def Schedule.fixed (s : Schedule J) : Bool × Nat × Option Nat := (s.stopping,s.deadline,s.alarmDue)

def ScheduleEffect.setsAlarm : ScheduleEffect J R F → Bool
  | .alarm (.set _) => true
  | _ => false

/-- The alarm is left to the end of the step. -/
def Silent (es : List (ScheduleEffect J R F)) : Prop := ∀ e∈es, e.setsAlarm=false

@[simp] theorem silent_nil : @Silent J R F [] := forall_mem_nil _

@[simp] theorem silent_append {es es' : List (ScheduleEffect J R F)} :
    Silent (es++es') ↔ Silent es ∧ Silent es' := forall_mem_append

@[simp] theorem silent_cons {e : ScheduleEffect J R F} {es : List (ScheduleEffect J R F)} :
    Silent (e::es) ↔ e.setsAlarm=false ∧ Silent es := forall_mem_cons

@[simp] theorem silent_dropAll (pid : Pid) (events : List (Queued J)) (reason : String) :
    Silent (@dropAll J R F pid events reason) := by
  simp [Silent,dropAll,setsAlarm]

@[simp] theorem silent_wakeIdleWaiters (s : Schedule J) :
    Silent (@wakeIdleWaiters J R F s).2 := by
  intro e he
  obtain ⟨waiter,-,rfl⟩ := mem_map.mp he
  rfl

/-- What one transition does: moves of `pid`'s desk, and nothing to any other's. -/
structure Local (given : List Act) (s : Schedule J)
    (r : Handled J R F) (pid : Pid) : Prop where
  chain : Chain Move (s.desk pid) (given++actsOf pid r.2) (r.1.desk pid)
  spawns : SpawnsLast (s.desk pid) (actsOf pid r.2) (r.1.desk pid)
  settles : s.stopping=false → (s.desk pid).Settled → (r.1.desk pid).Settled
  frame : ∀ q, q≠pid → r.1.desk q=s.desk q ∧ actsOf q r.2=[]
  fixed : r.1.fixed=s.fixed
  silent : Silent r.2

variable {r : Handled J R F} {given : List Act}

theorem Local.stopping {s : Schedule J} {pid : Pid} (h : Local given s r pid) :
    r.1.stopping=s.stopping := congrArg Prod.fst h.fixed

section Transitions

theorem local_quiet {s : Schedule J} (hd : ∀ q, r.1.desk q=s.desk q) (ha : ∀ q, actsOf q r.2=[])
    (hfixed : r.1.fixed=s.fixed) (hsilent : Silent r.2) (pid : Pid) : Local [] s r pid where
  chain := by
    rw [hd,ha]
    exact .refl
  spawns := by simp [SpawnsLast,ha]
  settles := by simp [hd]
  frame := fun q _ => ⟨hd q,ha q⟩
  fixed := hfixed
  silent := hsilent

variable (s : Schedule J) (pid : Pid)

theorem local_refl : @Local J R F [] s (s,[]) pid :=
  local_quiet (r := (s,[])) (fun _ => rfl) (fun _ => rfl) rfl silent_nil pid

theorem local_of_eq {s : Schedule J}
    (h : r=(s,[])) (pid : Pid) : Local [] s r pid := h ▸ local_refl s pid

theorem Local.of_acts {s : Schedule J}
    {r r' : Handled J R F} {pid : Pid} (h : Local given s r pid)
    (hd : ∀ q, r'.1.desk q=r.1.desk q) (ha : ∀ q, actsOf q r'.2=actsOf q r.2)
    (hfixed : r'.1.fixed=r.1.fixed) (hsilent : Silent r.2 → Silent r'.2) :
    Local given s r' pid where
  chain := by
    rw [hd,ha]
    exact h.chain
  spawns := by
    rw [hd,ha]
    exact h.spawns
  settles := by
    rw [hd]
    exact h.settles
  frame := fun q hq => ⟨(hd q).trans (h.frame q hq).1,(ha q).trans (h.frame q hq).2⟩
  fixed := hfixed.trans h.fixed
  silent := hsilent h.silent

theorem Local.wake {s : Schedule J} {pid : Pid} (h : Local given s r pid) :
    Local given s ((r.1.wakeIdleWaiters (R := R) (F := F)).1,r.2++r.1.wakeIdleWaiters.2) pid :=
  h.of_acts (fun _ => rfl) (fun q => by simp) rfl (by simp)

/-- A transition after moves of the same desk that put no thread in charge. -/
theorem Local.after {given acts : List Act} {s m : Schedule J} {pid : Pid}
    {es : List (ScheduleEffect J R F)} (h : Local [] m r pid)
    (hchain : Chain Move (s.desk pid) (given++acts) (m.desk pid))
    (hes : ∀ q, actsOf q es=if q=pid then acts else []) (hno : ∀ g, .spawn g∉acts)
    (hthread : ∀ g, .spawn g∈actsOf pid r.2 → (m.desk pid).threaded=false →
      (s.desk pid).threaded=false ∨ .unwatch∈acts)
    (hgen : (s.desk pid).generation≤(m.desk pid).generation)
    (hsettles : s.stopping=false → (s.desk pid).Settled → (r.1.desk pid).Settled)
    (hothers : ∀ q, q≠pid → m.desk q=s.desk q) (hfixed : m.fixed=s.fixed) (hsilent : Silent es) :
    Local given s (r.1,es++r.2) pid where
  chain := by
    rw [actsOf_append,hes,if_pos rfl,← append_assoc]
    exact hchain.trans (by simpa using h.chain)
  spawns := by
    rw [actsOf_append,hes,if_pos rfl]
    intro g hg
    have hg' := (mem_append.mp hg).resolve_left (hno g)
    obtain ⟨before,ha,hnone,ht,hnew,hrest⟩ := h.spawns g hg'
    refine ⟨acts++before,by rw [ha,append_assoc],?_,?_,hgen.trans_lt hnew,hrest⟩
    · exact fun g' hm => (mem_append.mp hm).elim (hno g') (hnone g')
    rcases ht with ht | ht
    · exact (hthread g hg' ht).imp id (mem_append_left _)
    · exact Or.inr (mem_append_right _ ht)
  settles := hsettles
  frame := by
    intro q hq
    obtain ⟨hdesk,hacts⟩ := h.frame q hq
    exact ⟨hdesk.trans (hothers q hq),by rw [actsOf_append,hes,if_neg hq,hacts]; rfl⟩
  fixed := h.fixed.trans hfixed
  silent := silent_append.mpr ⟨hsilent,h.silent⟩

theorem chain_replace (d : Desk) (p : Queued J → Bool) (l : List (Queued J))
    (before after : List Meta) (hw : d.waiting=before++l.map info++after) :
    Chain Move d ((l.filter p).map fun w => .outcome w.info true)
      {d with waiting := before++(l.filter fun w => !p w).map info++after} := by
  induction l generalizing d before with
  | nil =>
    refine refl.of_eq rfl ?_
    cases d
    simpa using hw
  | cons w l ih =>
    cases hp : p w with
    | false =>
      have := ih d (before++[w.info]) (by simpa using hw)
      simpa [hp] using this
    | true =>
      have hdrop : Move d [.outcome w.info true] {d with waiting := before++(l.map info++after)} :=
        .drop d before (l.map info++after) w.info true (by simpa using hw) (by simp)
      have hrest := ih {d with waiting := before++(l.map info++after)} before (by simp)
      simpa [hp] using (single hdrop).trans hrest

theorem chain_dropAll (d : Desk) (l : List (Queued J)) (hw : d.waiting=l.map info)
    (hr : d.reading=none) :
    Chain Move d (l.map fun w => .outcome w.info false) {d with waiting := []} := by
  induction l generalizing d with
  | nil =>
    refine refl.of_eq rfl ?_
    cases d
    simpa using hw
  | cons w l ih =>
    have hdrop := Move.drop d [] (l.map info) w.info false hw fun _ => ⟨rfl,hr⟩
    exact (single hdrop).trans (ih {d with waiting := l.map info} rfl hr)

theorem start_eq {s : Schedule J} {pid : Pid} (h : s.apps[pid]?=some app)
    (reuse : Bool) : @start J R F s pid reuse =
      (s.setApp pid {app with
        flight := app.flight.succeed.1
        threaded := true},[.spawn pid (app.flight.generation+1) reuse]) := by
  simp [start,h,InFlight.succeed]

theorem start_local (reuse : Bool) (hs : (s.desk pid).Sound) (ht : (s.desk pid).threaded=false)
    (hw : (s.desk pid).waiting≠[]) (ha : (s.desk pid).abandoned<abandonedLimit) :
    Local [] s (@start J R F s pid reuse) pid := by
  cases h : s.apps[pid]? with
  | none => simp [desk_of_none h,Desk.new] at hw
  | some app =>
    rw [desk_of_some h] at hs ht hw ha
    have hr : app.desk.reading=none := hs.reading_none ht
    have hmove := Move.spawn app.desk ht hw ha
    have hacts : actsOf pid (@start J R F s pid reuse).2 =
        [.spawn (app.desk.generation+1)] := by
      simp [start_eq h,actsOf_cons,act,App.desk]
    have hdesk : (@start J R F s pid reuse).1.desk pid =
        {app.desk with threaded := true, generation := app.desk.generation+1} := by
      simp [start_eq h,App.desk,InFlight.succeed,InFlight.underWay]
    constructor
    · rw [hacts,hdesk,desk_of_some h]
      exact single hmove
    · rw [hacts,hdesk,desk_of_some h]
      intro g hg
      rw [mem_singleton,Act.spawn.injEq] at hg
      subst hg
      exact ⟨[],rfl,by simp,Or.inl ht,lt_succ_self _,rfl,rfl,hr,hw,ha⟩
    · rw [hdesk]
      intro _ _ _ hn
      cases hn
    · intro q hq
      rw [start_eq h]
      exact ⟨desk_setApp_ne s hq _,by simp [actsOf_cons,act,hq.symm]⟩
    · simp [start_eq h,setApp,fixed]
    · simp [start_eq h,setsAlarm]

theorem dropWaiting_eq {s : Schedule J} {pid : Pid} (h : s.apps[pid]?=some app)
    (ht : app.threaded=false) (hw : app.queue≠[]) :
    @dropWaiting J R F s pid =
      (((s.setApp pid {app with queue := []}).wakeIdleWaiters (R := R) (F := F)).1,
        dropAll pid app.queue waitedTooLong ++
          (s.setApp pid {app with queue := []}).wakeIdleWaiters.2) := by
  simp [dropWaiting,h,ht,hw]

theorem dropWaiting_local (hs : (s.desk pid).Sound) :
    Local [] s (@dropWaiting J R F s pid) pid := by
  cases h : s.apps[pid]? with
  | none => exact local_of_eq (by simp [dropWaiting,h]) pid
  | some app =>
    by_cases hskip : (app.threaded || app.queue.isEmpty)=true
    · exact local_of_eq (by simp [dropWaiting,h,hskip]) pid
    simp only [Bool.or_eq_true,List.isEmpty_iff,not_or,Bool.not_eq_true] at hskip
    obtain ⟨ht,hw⟩ := hskip
    have hdesk : (@dropWaiting J R F s pid).1.desk pid =
        {app.desk with waiting := []} := by
      simp [dropWaiting_eq h ht hw,App.desk]
    have hacts : actsOf pid (@dropWaiting J R F s pid).2 =
        app.queue.map fun w => .outcome w.info false := by
      simp [dropWaiting_eq h ht hw,show passesOver waitedTooLong=false by decide]
    rw [desk_of_some h] at hs
    constructor
    · rw [hacts,hdesk,desk_of_some h]
      exact chain_dropAll app.desk app.queue rfl (hs.reading_none ht)
    · rw [hacts]
      simp [SpawnsLast]
    · rw [hdesk]
      intro _ _ hne
      exact absurd rfl hne
    · intro q hq
      simp [dropWaiting_eq h ht hw,desk_setApp_ne s hq,actsOf_dropAll_ne hq]
    · simp [dropWaiting_eq h ht hw,setApp,wakeIdleWaiters,fixed]
    · simp [dropWaiting_eq h ht hw]

theorem desk_getD : ((s.apps[pid]?).getD App.new).desk=s.desk pid := by
  cases h : s.apps[pid]? <;> simp [desk,h,App.desk,App.new,Desk.new,InFlight.new,InFlight.underWay]

def keptOf (kind : FocusEvent) (key : Option (List Int)) (queue : List (Queued J)) :
    List (Queued J) := queue.filter fun w => !replaces kind key w

section

variable (kind : FocusEvent)

include kind

variable (key : Option (List Int))

theorem replaceWaiting_desk :
    (@replaceWaiting J R F s pid kind key).1.desk pid =
      {s.desk pid with
        waiting := (keptOf kind key ((s.apps[pid]?).getD App.new).queue).map info} := by
  rw [← desk_getD s pid]
  simp only [replaceWaiting]
  split <;> simp [App.desk,keptOf]

theorem replaceWaiting_acts :
    actsOf pid (@replaceWaiting J R F s pid kind key).2 =
      ((((s.apps[pid]?).getD App.new).queue.filter (replaces kind key)).map
        fun w => .outcome w.info true) := by
  simp only [replaceWaiting]
  split <;> simp [show passesOver replacedByNewer=true by decide]

theorem replaceWaiting_frame {q : Pid} (hq : q≠pid) :
    (@replaceWaiting J R F s pid kind key).1.desk q=s.desk q ∧
      actsOf q (@replaceWaiting J R F s pid kind key).2=[] := by
  simp only [replaceWaiting]
  split <;> simp [desk_setApp_ne s hq,actsOf_dropAll_ne hq]

theorem replaceWaiting_fixed :
    (@replaceWaiting J R F s pid kind key).1.fixed=s.fixed ∧
      Silent (@replaceWaiting J R F s pid kind key).2 := by
  simp only [replaceWaiting]
  split <;> exact ⟨rfl,by simp⟩

theorem replaceWaiting_holds :
    ((@replaceWaiting J R F s pid kind key).1.apps[pid]?).isSome := by
  simp only [replaceWaiting]
  split <;> simp [wakeIdleWaiters]

def noted (s : Schedule J) (pid : Pid) (kind : FocusEvent) : Schedule J :=
  if movesFocus kind then
    {s with queued := s.queued+1, lastFocus := some pid}.movedAwayFromAllBut pid
  else {s with queued := s.queued+1}

theorem noted_desk (q : Pid) : (noted s pid kind).desk q=s.desk q := by
  unfold noted
  split
  · exact desk_movedAwayFromAllBut _ pid q
  · rfl

theorem noted_holds (h : (s.apps[pid]?).isSome) : ((noted s pid kind).apps[pid]?).isSome := by
  unfold noted
  split
  · simpa [movedAwayFromAllBut] using h
  · exact h

end

variable (info : Meta)

theorem enqueue_eq (job : J) (kind : FocusEvent) (key : Option (List Int)) (window : RuleWindow)
    (h : (noted s pid kind).apps[pid]?=some app) :
    ∃ w : Queued J, w.info=info ∧ w.place=s.queued+1 ∧
      s.enqueue pid info job kind key window =
        (noted s pid kind).setApp pid {app with queue := app.queue++[w]} := by
  refine ⟨⟨s.queued+1,movesFocus kind && s.lastFocus≠some pid,app.leftAt,kind,key,
    window,info,job⟩,rfl,rfl,?_⟩
  unfold noted at h ⊢
  cases hk : movesFocus kind with
  | true =>
    simp only [hk,if_true] at h
    simp [enqueue,hk,h]
    rfl
  | false =>
    simp_all [enqueue]

theorem attend_local (now : Nat) (pid : Pid) (hs : (s.desk pid).Sound)
    (hw : (s.desk pid).waiting≠[]) :
    Local [] s (@attend J R F s now pid) pid ∧
      ((@attend J R F s now pid).1.desk pid).Settled := by
  cases h : s.apps[pid]? with
  | none => simp [desk_of_none h,Desk.new] at hw
  | some app =>
    have hd := desk_of_some h
    cases ht : app.threaded with
    | true =>
      have hr : @attend J R F s now pid=(s,[.wake (.thread pid)]) := by
        simp [attend,h,ht]
      rw [hr]
      refine ⟨local_quiet (r := (s,[.wake (.thread pid)])) (fun _ => rfl) (fun _ => rfl) rfl
        (by simp [setsAlarm]) pid,?_⟩
      intro _ hn
      simp [hd,App.desk,ht] at hn
    | false =>
      by_cases hp : app.limitReached.any fun reached => satAdd reached s.deadline≤now
      · have hr : @attend J R F s now pid=s.dropWaiting pid := by
          simp [attend,h,ht,hp]
        rw [hr]
        refine ⟨dropWaiting_local s pid hs,?_⟩
        have hq : app.queue≠[] := by simpa [hd,App.desk] using hw
        intro hne
        simp [dropWaiting_eq h ht hq,App.desk] at hne
      by_cases hl : abandonedLimit≤app.abandoned
      · have hr : @attend J R F s now pid=(s,[]) := by
          simp [attend,h,ht,hp,hl]
        rw [hr]
        refine ⟨local_refl s pid,?_⟩
        intro _ _
        have := hs.atMost
        rw [hd] at this ⊢
        exact le_antisymm this hl
      · have hr : @attend J R F s now pid=s.start pid false := by
          simp [attend,h,ht,hp,hl]
        rw [hr]
        refine ⟨start_local s pid false hs (by simp [hd,App.desk,ht]) hw
          (by simpa [hd,App.desk] using hl),?_⟩
        intro _ hn
        simp [start_eq h,App.desk] at hn

def Desk.requeued (d : Desk) (kind : FocusEvent) (key : Option (List Int))
    (queue : List (Queued J)) (info : Meta) : Desk :=
  {d with waiting := (keptOf kind key queue).map Queued.info++[info]}

theorem requeue_spec (job : J) (kind : FocusEvent) (key : Option (List Int)) (window : RuleWindow) :
    let s' := (@replaceWaiting J R F s pid kind key).1.enqueue pid info job kind key
      window
    s'.desk pid=(s.desk pid).requeued kind key ((s.apps[pid]?).getD App.new).queue info ∧
      (∀ q, q≠pid → s'.desk q=s.desk q) ∧ s'.fixed=s.fixed := by
  have hheld := @replaceWaiting_holds J R F s pid kind key
  have hdesk := @replaceWaiting_desk J R F s pid kind key
  have hframe := fun q => @replaceWaiting_frame J R F s pid kind key (q := q)
  have hstop := (@replaceWaiting_fixed J R F s pid kind key).1
  revert hheld hdesk hframe hstop
  generalize (s.replaceWaiting pid kind key)=r
  intro hheld hdesk hframe hstop s'
  obtain ⟨app,happ⟩ := isSome_iff_exists.mp (noted_holds r.1 pid kind hheld)
  obtain ⟨w,hw,-,henq⟩ := enqueue_eq r.1 pid info job kind key window happ
  have hs' : s'=(noted r.1 pid kind).setApp pid {app with queue := app.queue++[w]} := henq
  have happdesk : app.desk=r.1.desk pid := by
    rw [← noted_desk r.1 pid kind pid,desk_of_some happ]
  refine ⟨?_,fun q hq => ?_,?_⟩
  · rw [hs',desk_setApp_self]
    change ({app.desk with waiting := (app.queue++[w]).map Queued.info} : Desk)=_
    rw [map_append,show app.queue.map Queued.info=app.desk.waiting from rfl,happdesk,hdesk]
    simp [Desk.requeued,hw]
  · rw [hs',desk_setApp_ne _ hq,noted_desk]
    exact (hframe q hq).1
  · rw [hs',← hstop]
    unfold noted
    split <;> rfl

theorem requeued_chain (kind : FocusEvent) (key : Option (List Int)) : Chain Move (s.desk pid)
      (.queued info::actsOf pid (@replaceWaiting J R F s pid kind key).2)
      ((s.desk pid).requeued kind key ((s.apps[pid]?).getD App.new).queue info) := by
  have hq : (s.desk pid).waiting=((s.apps[pid]?).getD App.new).queue.map Queued.info := by
    rw [← desk_getD s pid]
    rfl
  rw [replaceWaiting_acts]
  refine (single (Move.queue (s.desk pid) info)).trans ?_
  exact chain_replace {s.desk pid with waiting := (s.desk pid).waiting++[info]}
    (replaces kind key) ((s.apps[pid]?).getD App.new).queue [] [info] (by simp [hq])

theorem push_local (now : Nat) (pid : Pid) (info : Meta) (job : J) (kind : FocusEvent)
    (key : Option (List Int)) (window : RuleWindow) (hs : (s.desk pid).Sound) :
    Local [.queued info] s (@push J R F s now pid info job kind key window) pid := by
  cases hstop : s.stopping with
  | true =>
    have hr : @push J R F s now pid info job kind key window =
        (s,[.outcome pid info (.dropped shuttingDown)]) := by simp [push,hstop]
    rw [hr]
    constructor
    · simpa [actsOf,act,Judged.passedOver,passesOver] using single (Move.refuse (s.desk pid) info)
    · simp [SpawnsLast,actsOf,act]
    · exact fun _ h => h
    · intro q hq
      exact ⟨rfl,by simp [actsOf,act,hq.symm]⟩
    · rfl
    · simp [setsAlarm]
  | false =>
    obtain ⟨hdesk,hothers,hfixed⟩ := requeue_spec s pid info job kind key window
    have hacts := @replaceWaiting_acts J R F s pid kind key
    have hframe := fun q => @replaceWaiting_frame J R F s pid kind key (q := q)
    have hchain : Chain Move (s.desk pid) ([.queued info]++actsOf pid
        (@replaceWaiting J R F s pid kind key).2) _ :=
      requeued_chain s pid info kind key
    have hr : @push J R F s now pid info job kind key window =
        ((((@replaceWaiting J R F s pid kind key).1.enqueue pid info job kind key
            window).attend (R := R) (F := F) now pid).1,
          (s.replaceWaiting pid kind key).2++(((@replaceWaiting J R F s pid kind
            key).1.enqueue pid info job kind key window).attend now pid).2) := by
      simp [push,hstop]
    rw [hr]
    revert hdesk hothers hfixed
    generalize (s.replaceWaiting pid kind key).1.enqueue pid info job kind key window=s'
    intro hdesk hothers hfixed
    obtain ⟨hlocal,hsettled⟩ := attend_local s' now pid
      (by rw [hdesk]; exact ⟨hs.threaded,hs.request,hs.below,hs.atMost,hs.limited⟩)
      (by rw [hdesk]; simp [Desk.requeued])
    rw [← hdesk] at hchain
    refine hlocal.after hchain (fun q => ?_) (fun g hg => ?_) (fun _ _ ht => Or.inl ?_) ?_
      (fun _ _ => hsettled) hothers hfixed (@replaceWaiting_fixed J R F s pid kind key).2
    · by_cases hq : q=pid
      · rw [hq,if_pos rfl]
      · rw [if_neg hq,(hframe q hq).2]
    · simp [hacts] at hg
    · rwa [hdesk] at ht
    · rw [hdesk]
      exact le_refl _

theorem desk_letGo_self : (@letGo J R F s pid).1.desk pid=Desk.new := by
  simp [letGo,desk]

theorem desk_letGo_ne {pid q : Pid} (h : q≠pid) :
    (@letGo J R F s pid).1.desk q=s.desk q := by
  simp [letGo,desk,Std.ExtTreeMap.getElem?_erase,h.symm]

theorem settled_new : Desk.new.Settled := fun h => absurd rfl h

theorem spent_move (app : App J) (hs : app.desk.Sound) (h : app.spent=true) :
    Move app.desk [.forget] Desk.new := by
  simp only [App.spent,Bool.and_eq_true,Bool.not_eq_true',decide_eq_true_eq,List.isEmpty_iff] at h
  obtain ⟨⟨⟨-,ht⟩,ha⟩,hq⟩ := h
  exact .forget app.desk ht (hs.reading_none ht) (by simp [App.desk,hq]) ha

theorem letGo_local {s m : Schedule J} {pid : Pid} {app : App J}
    (hchain : Chain Move (s.desk pid) given app.desk) (hs : app.desk.Sound) (hsp : app.spent=true)
    (hothers : ∀ q, q≠pid → m.desk q=s.desk q) (hfixed : m.fixed=s.fixed) :
    Local given s (@letGo J R F m pid) pid where
  chain := by
    rw [desk_letGo_self]
    simpa [letGo,actsOf,act] using hchain.trans (single (spent_move app hs hsp))
  spawns := by simp [SpawnsLast,letGo,actsOf,act]
  settles := by
    rw [desk_letGo_self]
    exact fun _ _ => settled_new
  frame := by
    intro q hne
    rw [desk_letGo_ne _ hne]
    exact ⟨hothers q hne,by simp [letGo,actsOf,act,hne.symm]⟩
  fixed := hfixed
  silent := by simp [letGo,setsAlarm]

theorem setApp_letGo_local {s : Schedule J} {pid : Pid} {app app' : App J}
    (h : s.apps[pid]?=some app) (hchain : Chain Move app.desk given app'.desk)
    (hs : app'.desk.Sound) (hsp : app'.spent=true) :
    Local given s ((s.setApp pid app').letGo (R := R) (F := F) pid) pid :=
  letGo_local (by rwa [desk_of_some h]) hs hsp
    (fun _ hne => desk_setApp_ne s hne _) rfl

theorem setApp_local {s : Schedule J} {pid : Pid} {app app' : App J}
    (h : s.apps[pid]?=some app) (hchain : Chain Move app.desk given app'.desk)
    (hsettles : s.stopping=false → app'.desk.Settled) :
    @Local J R F given s (s.setApp pid app',[]) pid where
  chain := by
    rw [desk_setApp_self,desk_of_some h]
    simpa using hchain
  spawns := by simp [SpawnsLast]
  settles := by
    rw [desk_setApp_self]
    exact fun hstop _ => hsettles hstop
  frame := fun q hne => ⟨desk_setApp_ne s hne _,rfl⟩
  fixed := rfl
  silent := silent_nil

theorem retire_local {s : Schedule J} {now : Nat} {pid : Pid} {generation : Nat}
    (hstop : s.stopping=false) (h : s.apps[pid]?=some app)
    (hc : app.inCharge generation=true) (hs : app.desk.Sound) (ht : app.threaded=true)
    (hr : app.desk.reading=none) (hw : app.desk.waiting=[]) (he : app.ending=true) :
    Local [] s (@Schedule.next J R F s now pid generation) pid := by
  have hq : app.queue=[] := by simpa [App.desk] using hw
  let retired := {app with threaded := false}
  have hmove := Move.retire app.desk ht hr hw
  have hnext : @Schedule.next J R F s now pid generation =
      if retired.spent then (s.setApp pid retired).letGo pid else (s.setApp pid retired,[]) := by
    simp [Schedule.next,hstop,h,hc,hq,he,retired]
  rw [hnext]
  split
  next hsp => exact setApp_letGo_local h (single hmove) (move_sound hs hmove) hsp
  · exact setApp_local h (single hmove) fun _ hne => absurd hw hne

variable {jobs : List (Request × Meta)}

theorem reading_free {d : Desk} {generation : Nat} (hs : d.Sound) (hj : d.Holds jobs)
    (hgen : d.generation=generation) (hfree : ∀ j∈jobs, j.1.generation≠generation) :
    d.reading=none := by
  cases hread : d.reading with
  | none => rfl
  | some r =>
    obtain ⟨request,info,published⟩ := r
    have hmem : (request,info)∈jobs := count_pos_iff.mp (by rw [hj.current _ _ _ hread]; omega)
    exact absurd ((hs.request _ hread).trans hgen) (hfree _ hmem)

theorem next_local (now : Nat) (pid : Pid) (generation : Nat) (hs : (s.desk pid).Sound)
    (hj : (s.desk pid).Holds jobs) (hfree : ∀ j∈jobs, j.1.generation≠generation) :
    Local [] s (@Schedule.next J R F s now pid generation) pid := by
  cases hstop : s.stopping with
  | true => exact local_of_eq (by simp [Schedule.next,hstop]) pid
  | false =>
    cases h : s.apps[pid]? with
    | none => exact local_of_eq (by simp [Schedule.next,hstop,h]) pid
    | some app =>
      rw [desk_of_some h] at hs hj
      cases hc : app.inCharge generation with
      | false => exact local_of_eq (by simp [Schedule.next,hstop,h,hc]) pid
      | true =>
        have hc' : app.threaded=true ∧ app.flight.generation=generation := by
          simpa [App.inCharge] using hc
        have hnone := reading_free hs hj hc'.2 hfree
        cases hq : app.queue with
        | cons w rest =>
          let request : Request := ⟨app.flight.generation,app.flight.requests+1⟩
          have hmove := Move.start app.desk request w.info (rest.map info) hc'.1
            hnone (by simp [App.desk,hq]) rfl
          have hacts : actsOf pid (@Schedule.next J R F s now pid generation).2 =
              [.job request w.info] := by
            simp [Schedule.next,hstop,h,hc,hq,actsOf,act,InFlight.start,InFlight.nextRequest,
              request]
          have hdesk : (@Schedule.next J R F s now pid generation).1.desk pid =
              {app.desk with
                waiting := rest.map info
                reading := some (request,w.info,false)} := by
            simp [Schedule.next,hstop,h,hc,hq,App.desk,InFlight.start,
              InFlight.nextRequest,InFlight.setRunning,InFlight.underWay,request]
          constructor
          · rw [hacts,hdesk,desk_of_some h]
            exact single hmove
          · rw [hacts]
            simp [SpawnsLast]
          · rw [hdesk]
            intro _ _ _ hn
            simp [App.desk,hc'.1] at hn
          · intro q hne
            simp [Schedule.next,hstop,h,hc,hq,desk_setApp_ne s hne,actsOf,act,hne.symm]
          · simp [Schedule.next,hstop,h,hc,hq,setApp,fixed]
          · simp [Schedule.next,hstop,h,hc,hq,setsAlarm]
        | nil =>
          have hwait : app.desk.waiting=[] := by simp [App.desk,hq]
          cases he : app.ending with
          | false => exact local_of_eq (by simp [Schedule.next,hstop,h,hc,hq,he]) pid
          | true =>
            exact retire_local hstop h hc hs hc'.1 hnone hwait he

variable {request : Request} (judged : Judged R F) (top : Option Window)

/-- The read under way that returns: its outcome is sent unless it was published. -/
theorem returned_current {s : Schedule J} {pid : Pid} {info : Meta} {published : Bool}
    (h : s.apps[pid]?=some app) (hs : app.desk.Sound)
    (hread : app.desk.reading=some (request,info,published)) :
    Local [.returned request info] s (s.returned pid request info judged top) pid := by
  have ht : app.threaded=true := hs.threaded (by simp [hread])
  have hg : request.generation=app.flight.generation := hs.request _ hread
  have hc : app.inCharge request.generation=true := by simp [App.inCharge,ht,hg]
  obtain ⟨running,hrun,hreq,hinfo,hpub⟩ : ∃ running, app.flight.running=some running ∧
      running.request=request ∧ running.item.info=info ∧
      decide (running.walk=.published)=published := by
    cases hr : app.flight.running with
    | none => simp [App.desk,InFlight.underWay,hr] at hread
    | some running =>
      simp only [App.desk,InFlight.underWay,hr,map_some,some.injEq,Prod.mk.injEq] at hread
      exact ⟨running,rfl,hread.1,hread.2.1,hread.2.2⟩
  have hend : app.flight.endOf request=({app.flight with running := none},
      some (running.item,published)) := by
    have hof : app.flight.runningOf request=some running :=
      InFlight.runningOf_eq_some.mpr ⟨hrun,hreq⟩
    simp [InFlight.endOf,hof,hpub]
  have hmove := Move.finish app.desk request info published judged.passedOver hread
  let kept := if judged.isRead && top.isSome then {app with lastTop := top} else app
  have hkept : kept.desk=app.desk ∧ kept.flight=app.flight ∧ kept.threaded=app.threaded := by
    simp only [kept]
    split <;> exact ⟨rfl,rfl,rfl⟩
  have hr : s.returned pid request info judged top =
      (((s.setApp pid {kept with flight := {app.flight with running := none}}).wakeIdleWaiters
          (R := R) (F := F)).1,
        (if published then [] else [.outcome pid info judged]) ++
          ((s.setApp pid {kept with flight := {app.flight with running := none}
            }).wakeIdleWaiters).2) := by
    simp only [returned,h,hc,if_true]
    rw [show (if (judged.isRead && top.isSome)=true then {app with lastTop := top} else app)
      = kept from rfl,hkept.2.1,hend]
    cases published <;> rfl
  have hdesk : ({kept with flight := {app.flight with running := none}} : App J).desk =
      {app.desk with reading := none} := by
    rw [← hkept.1]
    simp [App.desk,InFlight.underWay,hkept.2.1]
  rw [hr]
  constructor
  · rw [desk_wakeIdleWaiters,desk_setApp_self,hdesk,desk_of_some h,actsOf_append,
      actsOf_wakeIdleWaiters,append_nil]
    cases published <;> simpa [owed,actsOf,act] using single hmove
  · intro g hm
    cases published <;> simp [actsOf_cons,act] at hm
  · rw [desk_wakeIdleWaiters,desk_setApp_self,hdesk]
    intro _ _ _ hn
    simp [App.desk,ht] at hn
  · intro q hne
    rw [desk_wakeIdleWaiters,desk_setApp_ne s hne,actsOf_append,actsOf_wakeIdleWaiters]
    cases published <;> simp [actsOf,act,hne.symm]
  · rfl
  · cases published <;> simp [setsAlarm]

def strayApp (app : App J) : App J :=
  {app with
    abandoned := app.abandoned-1
    limitReached := if app.abandoned-1<abandonedLimit then none else app.limitReached}

theorem returned_stray_eq {s : Schedule J} {pid : Pid} (h : s.apps[pid]?=some app)
    (hc : app.inCharge request.generation=false) :
    s.returned pid request info judged top =
      if (strayApp app).spent then
        (((s.setApp pid (strayApp app)).letGo (R := R) (F := F) pid).1,
          .forgetLast::((s.setApp pid (strayApp app)).letGo pid).2)
      else if (strayApp app).threaded || (strayApp app).queue.isEmpty || s.stopping then
        (s.setApp pid (strayApp app),[.forgetLast])
      else (((s.setApp pid (strayApp app)).start (R := R) (F := F) pid true).1,
        .forgetLast::((s.setApp pid (strayApp app)).start pid true).2) := by
  simp only [returned,h,hc]
  rfl

/-- A stray's return: the thread count goes down, and the thread that returned may be put
in charge again, under a new generation. -/
theorem returned_stray {s : Schedule J} {pid : Pid} (h : s.apps[pid]?=some app)
    (hs : app.desk.Sound) (hc : app.inCharge request.generation=false)
    (hg : request.generation<app.desk.generation) (ha : 0<app.desk.abandoned) :
    Local [.returned request info] s (s.returned pid request info judged top) pid := by
  have hmove := Move.regain app.desk request info hg ha
  have hdesk : (strayApp app).desk={app.desk with
      abandoned := app.desk.abandoned-1
      limited := app.desk.limited && abandonedLimit≤app.desk.abandoned-1} := by
    simp only [strayApp,App.desk,Desk.mk.injEq,true_and]
    by_cases hlt : app.abandoned-1<abandonedLimit
    · simp [hlt,not_le.mpr hlt]
    · simp [hlt,not_lt.mp hlt]
  have hbelow : (strayApp app).desk.abandoned<abandonedLimit := by
    have := hs.atMost
    rw [hdesk]
    simp only
    omega
  rw [← hdesk] at hmove
  have hsound := move_sound hs hmove
  rw [returned_stray_eq info judged top h hc]
  split
  next hsp =>
    exact (setApp_letGo_local h (single hmove) hsound hsp).of_acts (fun _ => rfl) (fun _ => rfl) rfl
      (by simp [setsAlarm])
  split
  next hrest =>
    refine (setApp_local h (single hmove) ?_).of_acts (fun _ => rfl) (fun _ => rfl) rfl
      (by simp [setsAlarm])
    intro hstop hw ht
    have hw' : (strayApp app).queue≠[] := by simpa [App.desk] using hw
    have ht' : (strayApp app).threaded=false := ht
    simp [ht',hw',hstop] at hrest
  next hrest =>
    simp only [Bool.or_eq_true,List.isEmpty_iff,not_or,Bool.not_eq_true] at hrest
    obtain ⟨⟨ht,hq⟩,-⟩ := hrest
    have hset : (s.setApp pid (strayApp app)).desk pid=(strayApp app).desk :=
      desk_setApp_self s pid (strayApp app)
    have hstart := @start_local J R F (s.setApp pid (strayApp app)) pid true
      (by rw [hset]; exact hsound) (by rw [hset]; exact ht)
      (by rw [hset]; simpa [App.desk] using hq) (by rw [hset]; exact hbelow)
    have hchain : Chain Move (s.desk pid) ([.returned request info]++[])
        ((s.setApp pid (strayApp app)).desk pid) := by
      rw [hset,desk_of_some h]
      exact single hmove
    have hsilent : ∀ q, actsOf q ([.forgetLast] : List (ScheduleEffect J R F)) =
        if q=pid then [] else [] := fun q => (ite_self _).symm
    refine hstart.after hchain hsilent (by simp) (fun _ _ _ => Or.inl ?_) ?_ ?_
      (fun q hne => desk_setApp_ne s hne _) rfl (by simp [setsAlarm])
    · rw [desk_of_some h]
      exact ht
    · rw [hset,desk_of_some h]
      exact le_refl _
    · intro _ _ _ hn
      simp [start_eq (setApp_self s pid (strayApp app)),App.desk] at hn

theorem returned_local (request : Request) (info : Meta) (judged : Judged R F) (top : Option Window)
    (hs : (s.desk pid).Sound) (hj : (s.desk pid).Holds jobs) (hopen : (request,info)∈jobs) :
    Local [.returned request info] s (s.returned pid request info judged top) pid := by
  cases h : s.apps[pid]? with
  | none =>
    have hlen := hj.length
    rw [desk_of_none h] at hlen
    have : jobs=[] := by simpa [Desk.new] using hlen
    simp [this] at hopen
  | some app =>
    rw [desk_of_some h] at hs hj
    rcases hj.strays _ hopen with hg | ⟨published,hread⟩
    · have hc : app.inCharge request.generation=false := by
        have hne : app.flight.generation≠request.generation := fun heq => by
          simp only [App.desk,heq] at hg
          omega
        simp [App.inCharge,hne]
      exact returned_stray info judged top h hs hc hg (hj.abandoned_pos hs hopen hg)
    · exact returned_current judged top h hs hread

end Transitions

end Verbatim.Listener
