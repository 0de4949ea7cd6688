import Verbatim.Listener.Decisions

namespace Verbatim.Listener

open Framework ReaderRules Schedule List

variable {J R F : Type}

theorem outpostEnded_local (s : Schedule J) (pid : Pid) (hs : (s.desk pid).Sound) :
    Local [] s (@outpostEnded J R F s pid) pid := by
  cases h : s.apps[pid]? with
  | none => exact local_of_eq (by simp [outpostEnded,h]) pid
  | some app =>
    rw [desk_of_some h] at hs
    let ended := {app with ending := true}
    have hdesk : ended.desk=app.desk := rfl
    simp only [outpostEnded,h]
    split
    next hsp => exact setApp_letGo_local h .refl hs hsp
    refine local_quiet (s := s) ?_ (fun _ => rfl) rfl (by simp [ScheduleEffect.setsAlarm]) pid
    intro q
    by_cases hq : q=pid
    · rw [hq,desk_setApp_self,desk_of_some h]
      exact hdesk
    · exact desk_setApp_ne s hq _

theorem App.generation_of_inCharge {app : App J} {generation : Nat}
    (h : app.inCharge generation=true) : app.flight.generation=generation := by
  simp only [App.inCharge,Bool.and_eq_true,decide_eq_true_eq] at h
  exact h.2

def failedApp (app : App J) : App J := {app with threaded := false, queue := []}

def letGoFailed (s : Schedule J) (pid : Pid) (app : App J) :
    Handled J R F :=
  if (failedApp app).spent then (s.setApp pid (failedApp app)).letGo pid
  else (s.setApp pid (failedApp app),[])

theorem spawnFailed_eq {s : Schedule J} {pid : Pid} {generation : Nat} {app : App J}
    (h : s.apps[pid]?=some app) (hc : app.inCharge generation=true) :
    @spawnFailed J R F s pid generation =
      (((@letGoFailed J R F s pid app).1.wakeIdleWaiters (R := R) (F := F)).1,
        dropAll pid app.queue noThread++(letGoFailed s pid app).2 ++
          (@letGoFailed J R F s pid app).1.wakeIdleWaiters.2) := by
  simp only [spawnFailed,h,hc]
  rfl

theorem letGoFailed_frame (s : Schedule J) (pid : Pid) (app : App J) {q : Pid} (hq : q≠pid) :
    (@letGoFailed J R F s pid app).1.desk q=s.desk q ∧
      actsOf q (@letGoFailed J R F s pid app).2=[] := by
  unfold letGoFailed
  split
  · rw [desk_letGo_ne _ hq,desk_setApp_ne s hq]
    exact ⟨rfl,by simp [letGo,actsOf,ScheduleEffect.act,hq.symm]⟩
  · exact ⟨desk_setApp_ne s hq _,rfl⟩

theorem letGoFailed_desk (s : Schedule J) (pid : Pid) (app : App J) :
    (@letGoFailed J R F s pid app).1.desk pid=(failedApp app).desk ∨
      (@letGoFailed J R F s pid app).1.desk pid=Desk.new := by
  unfold letGoFailed
  split
  · exact Or.inr (desk_letGo_self _ pid)
  · exact Or.inl (desk_setApp_self s pid _)

theorem spawnFailed_local (s : Schedule J) (pid : Pid) (generation : Nat) (hs : (s.desk pid).Sound)
    (hnew : (s.desk pid).generation=generation → (s.desk pid).reading=none) :
    Local [] s (@spawnFailed J R F s pid generation) pid := by
  cases h : s.apps[pid]? with
  | none => exact local_of_eq (by simp [spawnFailed,h]) pid
  | some app =>
    rw [desk_of_some h] at hs hnew
    cases hc : app.inCharge generation with
    | false => exact local_of_eq (by simp [spawnFailed,h,hc]) pid
    | true =>
      have hgen := App.generation_of_inCharge hc
      have hmove := Move.unspawned app.desk (hnew hgen)
      have hdrop := chain_dropAll {app.desk with threaded := false} app.queue rfl (hnew hgen)
      have hchain : Chain Move app.desk (app.queue.map fun w => .outcome w.info false)
          (failedApp app).desk := (Chain.single hmove).trans hdrop
      have hsound := chain_sound hs hchain
      let m := s.setApp pid (failedApp app)
      have hm : m.desk pid=(failedApp app).desk := desk_setApp_self s pid _
      have hheld : m.apps[pid]?=some (failedApp app) := setApp_self s pid _
      have hfailed : Local [] m (@letGoFailed J R F s pid app) pid ∧
          ((@letGoFailed J R F s pid app).1.desk pid).waiting=[] ∧
          ∀ g, .spawn g∉actsOf pid (@letGoFailed J R F s pid app).2 := by
        unfold letGoFailed
        split
        next hsp =>
          exact ⟨letGo_local (hm ▸ .refl) hsound hsp (fun _ _ => rfl) rfl,
            by rw [desk_letGo_self]; rfl,by simp [letGo,actsOf,ScheduleEffect.act]⟩
        · exact ⟨local_refl m pid,by rw [desk_setApp_self]; rfl,by simp⟩
      rw [spawnFailed_eq h hc]
      have hmoved : Chain Move (s.desk pid) ([]++app.queue.map fun w => .outcome w.info false)
          (m.desk pid) := by
        rw [hm,desk_of_some h]
        exact hchain
      refine (hfailed.1.after hmoved (fun q => ?_) (by simp)
        (fun g hg => absurd hg (hfailed.2.2 g)) ?_ (fun _ _ hne => absurd hfailed.2.1 hne)
        (fun q hq => desk_setApp_ne s hq _) rfl (by simp)).wake
      · by_cases hq : q=pid
        · rw [hq,if_pos rfl,actsOf_dropAll,show passesOver noThread=false by decide]
        · rw [if_neg hq,actsOf_dropAll_ne hq]
      · rw [hm,desk_of_some h]
        exact Nat.le_refl _

/-- What one input does: moves of each application's desk, under what the input gives it. -/
structure Steps (given : Pid → List Act) (stop : Bool) (s : Schedule J)
    (r : Handled J R F) : Prop where
  chain : ∀ q, Chain Move (s.desk q) (given q++actsOf q r.2) (r.1.desk q)
  spawns : ∀ q, SpawnsLast (s.desk q) (actsOf q r.2) (r.1.desk q)
  settles : ∀ q, r.1.stopping=false → (s.desk q).Settled → (r.1.desk q).Settled
  stopping : r.1.stopping=stop
  deadline : r.1.deadline=s.deadline

/-- The alarm's time an input finds: a tick is the alarm going off, which spends it. -/
def unspent (alarm : Option Nat) : ScheduleInput J R F → Option Nat
  | .tick => none
  | _ => alarm

/-- What one input does before the alarm is set at the end of its step. -/
structure Handles (given : Pid → List Act) (stop : Bool) (due : Option Nat) (s : Schedule J)
    (r : Handled J R F) : Prop extends Steps given stop s r where
  silent : Silent r.2
  alarmDue : r.1.alarmDue=due

variable {r : Handled J R F}

theorem Local.handles {given : List Act} {s : Schedule J} {pid : Pid} (all : Pid → List Act)
    (h : Local given s r pid) (hself : all pid=given) (hothers : ∀ q, q≠pid → all q=[]) :
    Handles all s.stopping s.alarmDue s r where
  chain := by
    intro q
    by_cases hq : q=pid
    · rw [hq,hself]
      exact h.chain
    · rw [hothers q hq,(h.frame q hq).1,(h.frame q hq).2]
      exact .refl
  spawns := by
    intro q
    by_cases hq : q=pid
    · rw [hq]
      exact h.spawns
    · rw [(h.frame q hq).2]
      simp [SpawnsLast]
  settles := by
    intro q hstop
    by_cases hq : q=pid
    · rw [hq]
      exact h.settles (h.stopping ▸ hstop)
    · rw [(h.frame q hq).1]
      exact id
  stopping := h.stopping
  deadline := congrArg (·.2.1) h.fixed
  silent := h.silent
  alarmDue := congrArg (·.2.2) h.fixed

theorem handles_quiet {s : Schedule J} {given : Pid → List Act} {stop : Bool} {due : Option Nat}
    (hd : ∀ q, r.1.desk q=s.desk q) (ha : ∀ q, actsOf q r.2=[]) (hg : ∀ q, given q=[])
    (hstop : r.1.stopping=stop) (hdeadline : r.1.deadline=s.deadline)
    (hsilent : Silent r.2) (halarm : r.1.alarmDue=due) : Handles given stop due s r where
  chain := by
    intro q
    rw [hd,ha,hg]
    exact .refl
  spawns := by simp [SpawnsLast,ha]
  settles := by simp [hd]
  stopping := hstop
  deadline := hdeadline
  silent := hsilent
  alarmDue := halarm

theorem tickAll_steps (now : Nat) (pids : List Pid) (hnd : pids.Nodup) (s : Schedule J)
    (hs : ∀ q, (s.desk q).Sound) :
    Handles (fun _ => []) s.stopping s.alarmDue s (@tickAll J R F now pids s) ∧
      ∀ q, q∉pids → (@tickAll J R F now pids s).1.desk q=s.desk q ∧
        actsOf q (@tickAll J R F now pids s).2=[] := by
  induction pids generalizing s with
  | nil =>
    exact ⟨handles_quiet (fun _ => rfl) (fun _ => rfl) (fun _ => rfl) rfl rfl
      (by simp [tickAll]) rfl,
      fun _ _ => ⟨rfl,rfl⟩⟩
  | cons pid pids ih =>
    obtain ⟨hnot,hrest⟩ := nodup_cons.mp hnd
    have hlocal := @tickApp_local J R F s now pid (hs pid)
    have hsound : ∀ q, ((@tickApp J R F s now pid).1.desk q).Sound := by
      intro q
      by_cases hq : q=pid
      · rw [hq]
        exact chain_sound (hs pid) hlocal.chain
      · rw [(hlocal.frame q hq).1]
        exact hs q
    obtain ⟨hsteps,hframe⟩ := ih hrest (s.tickApp now pid).1 hsound
    have hsplit : ∀ q, actsOf q (tickAll now (pid::pids) s).2 =
        actsOf q (s.tickApp now pid).2 ++
        actsOf q (tickAll now pids (@tickApp J R F s now
          pid).1).2 := fun q => actsOf_append q _ _
    have hlast : (tickAll now (pid::pids) s).1 =
        (tickAll now pids (@tickApp J R F s now pid).1).1 := rfl
    have hall := hlocal.handles (fun _ => []) rfl fun _ _ => rfl
    refine ⟨⟨⟨?_,?_,?_,?_,?_⟩,silent_append.mpr ⟨hall.silent,hsteps.silent⟩,
      hsteps.alarmDue.trans hall.alarmDue⟩,?_⟩
    · intro q
      rw [hsplit,hlast,nil_append]
      exact (hall.chain q).trans (hsteps.chain q)
    · intro q
      rw [hsplit,hlast]
      -- Each application is judged once: the acts are of its own turn or of none.
      by_cases hq : q=pid
      · rw [hq,(hframe pid hnot).1,(hframe pid hnot).2,append_nil]
        exact hlocal.spawns
      · rw [(hlocal.frame q hq).2,nil_append,← (hlocal.frame q hq).1]
        exact hsteps.spawns q
    · intro q hst hset
      exact hsteps.settles q hst (hall.settles q (hsteps.stopping.symm.trans hst) hset)
    · exact hsteps.stopping.trans hall.stopping
    · exact hsteps.deadline.trans hall.deadline
    · intro q hq
      rw [mem_cons,not_or] at hq
      rw [hsplit,hlast,(hframe q hq.2).1,(hframe q hq.2).2,(hlocal.frame q hq.1).1,
        (hlocal.frame q hq.1).2]
      exact ⟨rfl,rfl⟩

def ScheduleInput.stops : ScheduleInput J R F → Bool
  | .stop => true
  | _ => false

/-- What the shell's protocol gives a state: an input of a read or a thread names one
that is there. `jobs` are each application's reads not returned yet. -/
def Fits (s : Schedule J) (jobs : Pid → List (Request × Meta)) : ScheduleInput J R F → Prop
  | .next pid generation => ∀ j∈jobs pid, j.1.generation≠generation
  | .returned pid request info _ _ => (request,info)∈jobs pid
  | .spawnFailed pid generation =>
      (s.desk pid).generation=generation → (s.desk pid).reading=none
  | _ => True

variable {jobs : Pid → List (Request × Meta)}

theorem handle_handles (s : Schedule J) (input : ScheduleInput J R F) (now : Nat)
    (hs : ∀ q, (s.desk q).Sound) (hj : ∀ q, (s.desk q).Holds (jobs q)) (hfits : Fits s jobs input) :
    Handles (fun q => input.given q) (input.stops || s.stopping) (unspent s.alarmDue input) s
      (s.handle input now) := by
  cases input with
  | push pid info job kind key window =>
    exact (push_local s now pid info job kind key window (hs pid)).handles _
      (by simp [ScheduleInput.given]) fun q hq => by simp [ScheduleInput.given,Ne.symm hq]
  | next pid generation =>
    exact (next_local s now pid generation (hs pid) (hj pid) hfits).handles _ rfl fun _ _ => rfl
  | returned pid request info judged top =>
    exact (returned_local s pid request info judged top (hs pid) (hj pid) hfits).handles _
      (by simp [ScheduleInput.given]) fun q hq => by simp [ScheduleInput.given,Ne.symm hq]
  | tick =>
    change Handles (fun _ => []) s.stopping none s (tick {s with alarmDue := none} now)
    unfold tick
    split
    · exact handles_quiet (fun _ => rfl) (fun _ => rfl) (fun _ => rfl) rfl rfl (by simp) rfl
    have h := (@tickAll_steps J R F now s.apps.keys
      (Std.ExtTreeMap.distinct_keys.imp (by simp)) {s with alarmDue := none} hs).1
    exact ⟨⟨h.chain,h.spawns,h.settles,h.stopping,h.deadline⟩,h.silent,h.alarmDue⟩
  | learned pid request window =>
    exact (learned_local s now pid request window (hs pid)).handles _ rfl fun _ _ => rfl
  | armed pid request bound =>
    exact (armed_local s pid request bound (hs pid)).handles _ rfl fun _ _ => rfl
  | judged pid request verdict =>
    exact (judged_local s now pid request verdict (hs pid)).handles _ rfl fun _ _ => rfl
  | published pid request read thenAbandon =>
    exact (published_local s now pid request read thenAbandon (hs pid)).handles _ rfl fun _ _ => rfl
  | foreground topLevel runningTops =>
    exact handles_quiet (desk_foreground s topLevel runningTops) (fun _ => rfl)
      (fun _ => rfl) rfl rfl
      (by simp [handle]) rfl
  | msaaFocus pid =>
    exact handles_quiet (desk_movedAwayFromAllBut s pid) (fun _ => rfl) (fun _ => rfl) rfl rfl
      (by simp [handle]) rfl
  | outpostEnded pid =>
    exact (outpostEnded_local s pid (hs pid)).handles _ rfl fun _ _ => rfl
  | whenIdle waiter =>
    change Handles (fun _ => []) s.stopping s.alarmDue s (if s.stopping then _ else _)
    split
    · exact handles_quiet (fun _ => rfl) (fun _ => rfl) (fun _ => rfl) rfl rfl (by simp) rfl
    · exact handles_quiet (fun _ => rfl) (fun q => actsOf_wakeIdleWaiters _ q)
        (fun _ => rfl) rfl rfl
        (by simp) rfl
  | spawnFailed pid generation =>
    exact (spawnFailed_local s pid generation (hs pid) hfits).handles _ rfl fun _ _ => rfl
  | stop =>
    exact handles_quiet (fun _ => rfl) (fun _ => rfl) (fun _ => rfl) rfl rfl
      (by simp [handle,ScheduleEffect.setsAlarm]) rfl

theorem setAlarm_apps (s : Schedule J) :
    (@setAlarm J R F s).1.apps=s.apps ∧ (@setAlarm J R F s).1.stopping=s.stopping ∧
      (@setAlarm J R F s).1.deadline=s.deadline := by
  unfold setAlarm
  split
  · exact ⟨rfl,rfl,rfl⟩
  · split <;> exact ⟨rfl,rfl,rfl⟩

theorem setAlarm_acts (s : Schedule J) (q : Pid) :
    actsOf q (@setAlarm J R F s).2=[] := by
  unfold setAlarm
  split
  · rfl
  · split <;> rfl

theorem step_steps (s : Schedule J) (input : ScheduleInput J R F) (now : Nat)
    (hs : ∀ q, (s.desk q).Sound) (hj : ∀ q, (s.desk q).Holds (jobs q)) (hfits : Fits s jobs input) :
    Steps (fun q => input.given q) (input.stops || s.stopping) s (s.step input now) := by
  have h := handle_handles s input now hs hj hfits
  have hdesk : ∀ q, (s.step input now).1.desk q=(s.handle input now).1.desk q :=
    fun q => desk_congr (setAlarm_apps (s.handle input now).1).1 q
  have hacts : ∀ q, actsOf q (s.step input now).2=actsOf q (s.handle input now).2 := by
    intro q
    simp [step,setAlarm_acts]
  have hstop : (s.step input now).1.stopping=(s.handle input now).1.stopping :=
    (setAlarm_apps (s.handle input now).1).2.1
  constructor
  · intro q
    rw [hdesk,hacts]
    exact h.chain q
  · intro q
    rw [hdesk,hacts]
    exact h.spawns q
  · intro q hst
    rw [hdesk]
    exact h.settles q (hstop ▸ hst)
  · exact hstop.trans h.stopping
  · exact (setAlarm_apps (s.handle input now).1).2.2.trans h.deadline

end Verbatim.Listener
