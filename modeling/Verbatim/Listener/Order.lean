import Verbatim.Listener.Runs

namespace Verbatim.Listener

open Framework ReaderRules List Schedule ScheduleEffect Desk

variable {J R F : Type}

/-- The events of the outcomes that are not passed over. -/
def toldOf (acts : List Act) : List Meta :=
  acts.filterMap (fun | .outcome info false => some info | _ => none)

def jobsOf (acts : List Act) : List Meta :=
  acts.filterMap (fun | .job _ info => some info | _ => none)

def Desk.line (d : Desk) : List Meta := d.unpublished++d.waiting

/-- What the acts tell and hand to threads comes off the front of the line. -/
structure InOrder (d : Desk) (acts : List Act) (d' : Desk) : Prop where
  told : (toldOf acts++d'.line).Sublist (d.line++queuedOf acts)
  handed : (jobsOf acts++d'.waiting).Sublist (d.waiting++queuedOf acts)

@[simp] theorem toldOf_append (as bs : List Act) : toldOf (as++bs)=toldOf as++toldOf bs :=
  filterMap_append

@[simp] theorem jobsOf_append (as bs : List Act) : jobsOf (as++bs)=jobsOf as++jobsOf bs :=
  filterMap_append

theorem toldOf_owed (d : Desk) (request : Request) (info : Meta) (published passed : Bool)
    (hr : d.reading=some (request,info,published)) :
    (toldOf (owed info published passed)).Sublist d.unpublished := by
  cases published <;> cases passed <;> simp [owed,toldOf,unpublished,hr]

@[simp] theorem jobsOf_owed (info : Meta) (published passed : Bool) :
    jobsOf (owed info published passed)=[] := by
  cases published <;> rfl

theorem InOrder.refl (d : Desk) : InOrder d [] d := ⟨by simp [toldOf],by simp [jobsOf]⟩

theorem InOrder.trans {d e f : Desk} {as bs : List Act} (h : InOrder d as e)
    (h' : InOrder e bs f) : InOrder d (as++bs) f := by
  constructor
  · rw [toldOf_append,queuedOf_append,append_assoc]
    refine (h'.told.append_left _).trans ?_
    rw [← append_assoc,← append_assoc]
    exact h.told.append_right _
  · rw [jobsOf_append,queuedOf_append,append_assoc]
    refine (h'.handed.append_left _).trans ?_
    rw [← append_assoc,← append_assoc]
    exact h.handed.append_right _

theorem move_inOrder {d d' : Desk} {as : List Act} (h : Move d as d') : InOrder d as d' := by
  cases h with
  | queue info | refuse info =>
    constructor <;> simp [toldOf,jobsOf,queuedOf,line,unpublished]
  | drop before after info passed hw hfront =>
    cases passed with
    | true => constructor <;> simp [toldOf,jobsOf,queuedOf,line,unpublished,hw]
    | false =>
      -- An outcome that tells is of the first event waiting, with none being read.
      obtain ⟨rfl,hr⟩ := hfront rfl
      constructor <;> simp [toldOf,jobsOf,queuedOf,line,unpublished,hr,hw]
  | start request info rest ht hr hw hg =>
    constructor <;> simp [toldOf,jobsOf,queuedOf,line,unpublished,hr,hw]
  | publish request info hr =>
    constructor <;> simp [toldOf,jobsOf,queuedOf,line,unpublished,hr]
  | finish request info published passed hr | abandon request info published passed hr =>
    have htold := toldOf_owed d request info published passed hr
    have hnone : queuedOf (owed info published passed)=[] := by simp
    have hjobs : jobsOf (owed info published passed)=[] := by simp
    constructor
    · change (toldOf (owed info published passed)++([]++d.waiting)).Sublist
        (d.unpublished++d.waiting++queuedOf (owed info published passed))
      rw [hnone,append_nil]
      exact htold.append_right _
    · change (jobsOf (owed info published passed)++d.waiting).Sublist
        (d.waiting++queuedOf (owed info published passed))
      rw [hnone,hjobs,append_nil]
      exact .refl _
  | spawn ht hw ha | regain request info hg ha | retire ht hr hw | unspawned hr =>
    constructor <;> simp [toldOf,jobsOf,queuedOf,line,unpublished]
  | forget ht hr hw ha =>
    constructor <;> simp [toldOf,jobsOf,queuedOf,line,unpublished,Desk.new]

theorem chain_inOrder {d d' : Desk} {as : List Act} (h : Chain Move d as d') : InOrder d as d' :=
  Chain.invariant (InOrder d) (.refl d) (fun _ _ _ _ ih hm => ih.trans (move_inOrder hm)) h

/-- The events of `pid` that outcomes were sent of, but for those passed over. -/
def tellings (pid : Pid) (log : Log J R F) : List Meta := toldOf (history pid log)

/-- Over every run, each application's outcomes, but for those of events replaced or refused
at the stop, come in the order its events were pushed in, and so do its jobs. -/
theorem outcomes_in_push_order {deadline : Nat} {log : Log J R F} {s : Schedule J}
    (h : Run deadline log s) (pid : Pid) :
    (tellings pid log).Sublist (queuedOf (history pid log)) ∧
      (jobsOf (history pid log)).Sublist (queuedOf (history pid log)) ∧
      ((queuedOf (history pid log)).map Meta.marker).Nodup := by
  have hline := chain_inOrder ((run_kept h).chain pid)
  refine ⟨(sublist_append_left _ _).trans hline.told,
    (sublist_append_left _ _).trans hline.handed,?_⟩
  rw [nodup_iff_count_le_one]
  intro m
  rw [queued_count]
  exact nodup_iff_count_le_one.mp (List.Nodup.of_map _ (pushes_nodup h)) (pid,m)

def readsInTurn : List (ScheduleInput Unit Unit Unit × Nat) :=
  slowRead++[(.next 7 3,3000001),(.returned 7 ⟨3,2⟩ ⟨2,.focus,0⟩ (.read ()) none,3000002)]

theorem readsInTurn_ordered :
    ∃ log s, replay [] (new 2000000) readsInTurn=some (log,s) ∧
      (tellings 7 log).map Meta.marker=[1,2] ∧
      (tellings 7 log).Sublist (queuedOf (history 7 log)) := by
  have heval : (replay [] (new 2000000) readsInTurn).any (fun (log,_) =>
      decide ((tellings 7 log).map Meta.marker=[1,2]))=true := by decide +kernel
  obtain ⟨⟨log,s⟩,hr,htold⟩ := (Option.any_eq_true _ _).mp heval
  exact ⟨log,s,hr,of_decide_eq_true htold,
    (outcomes_in_push_order (replay_run readsInTurn .start hr) 7).1⟩

def judgements (pid : Pid) (log : Log J R F) : List (Nat × Judged R F) :=
  log.flatMap (fun entry => entry.effects.filterMap (fun
    | .outcome owner info judged => if owner=pid then some (info.marker,judged) else none
    | _ => none))

/-- An event pushed after the stop is refused while an older one is still being read. -/
def stoppedRead : List (ScheduleInput Unit Unit Unit × Nat) :=
  [(.push 7 ⟨1,.focus,0⟩ () .focus none .unknown,5),(.next 7 1,6),(.stop,7),
    (.push 7 ⟨2,.focus,0⟩ () .focus none .unknown,8),
    (.returned 7 ⟨1,1⟩ ⟨1,.focus,0⟩ (.read ()) none,9)]

theorem stoppedRead_out_of_order :
    ∃ log s, Run (J := Unit) (F := Unit) 2000000 log s ∧ pushes log=[(7,1),(7,2)] ∧
      judgements 7 log=[(2,.dropped shuttingDown),(1,.read ())] := by
  have heval : (replay [] (new 2000000) stoppedRead).any (fun (log,_) =>
      decide (pushes log=[(7,1),(7,2)] ∧
        judgements 7 log=[(2,.dropped shuttingDown),(1,.read ())]))=true := by
    decide +kernel
  obtain ⟨⟨log,s⟩,hr,hfacts⟩ := (Option.any_eq_true _ _).mp heval
  exact ⟨log,s,replay_run stoppedRead .start hr,of_decide_eq_true hfacts⟩

end Verbatim.Listener
