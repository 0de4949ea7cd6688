import Verbatim.Outpost.Follow

namespace Verbatim.Outpost

open Watch

def Resume.untimed : Resume → Resume
  | .bound _ => .bound 0
  | .poll _ _ => .poll 0 0
  | .read _ => .read 0

def Watch.untimed : Watch → Watch
  | .none => .none
  | .waiting opened _ => .waiting opened 0
  | .polling opened _ _ => .polling opened 0 0
  | .checking opened resume => .checking opened resume.untimed

def FollowState.untimed (follow : FollowState) : FollowState :=
  {follow with watch := follow.watch.untimed}

def Facts.untimed (facts : Facts) : Facts := {facts with follow := facts.follow.untimed}

variable (watch : Watch)

/-- Whether the change ends a watch on `node`: it follows another focus, reports another window in
front, or says a new element stands under the node. -/
def Change.movesFrom (change : Change) (node : NodeId) : Bool :=
  change.replaced=some node || change.follow.any (fun follow => follow.adopt && follow.node≠node)
    || change.foreground.any fun report => report.1≠node

def Watch.endedOn (ends : NodeId → Bool) : Watch :=
  if watch.openWatch.any (fun opened => ends opened.nodeId) then .none else watch

theorem Watch.endedOn_endedOn (first second : NodeId → Bool) :
    (watch.endedOn first).endedOn second=watch.endedOn fun node => first node || second node := by
  unfold endedOn
  cases hwatch : watch.openWatch with
  | none => simp [hwatch]
  | some opened => cases hfirst : first opened.nodeId with
    | true => simp [hfirst,openWatch]
    | false => simp [hwatch,hfirst]

section

variable (follow : FollowState)

include follow

theorem endWatchElsewhere_watch (node : NodeId) (applied : Applied) :
    (follow.endWatchElsewhere node applied).1.watch =
      follow.watch.endedOn fun other => other≠node := by
  simp only [FollowState.endWatchElsewhere,endedOn]
  split <;> rfl

@[simp] theorem retarget_watch (target : Target) (applied : Applied) :
    (follow.retarget target applied).1.watch=follow.watch := by
  unfold FollowState.retarget
  split <;> rfl

theorem applyReplaced_watch (replaced : Option NodeId) (applied : Applied) :
    (applyReplaced follow replaced applied).1.watch =
      follow.watch.endedOn fun node => replaced=some node := by
  cases replaced with
  | none => cases hwatch : follow.watch <;> simp [applyReplaced,endedOn,hwatch]
  | some node =>
    simp only [applyReplaced,endedOn,Option.some.injEq,eq_comm]
    split <;> rfl

omit follow in
theorem applyFollow_watch (facts : Facts) (change : Option Follow) (applied : Applied) :
    (applyFollow facts change applied).1.follow.watch=facts.follow.watch.endedOn
      fun node => change.any fun follow => follow.adopt && follow.node≠node := by
  cases change with
  | none => cases hwatch : facts.follow.watch <;> simp [applyFollow,endedOn,hwatch]
  | some follow =>
    cases hadopt : follow.adopt with
    | false =>
      cases hwatch : facts.follow.watch <;> simp [applyFollow,endedOn,hwatch,hadopt]
    | true =>
      have hends := endWatchElsewhere_watch facts.follow follow.node applied
      simp [applyFollow,adopt,hadopt,hends,eq_comm]

theorem applyForeground_watch (change : Option (NodeId × Role × Nat)) (applied : Applied) :
    (applyForeground follow change applied).1.watch =
      follow.watch.endedOn fun node => change.any fun report => report.1≠node := by
  cases change with
  | none => cases hwatch : follow.watch <;> simp [applyForeground,endedOn,hwatch]
  | some report =>
    have hends := endWatchElsewhere_watch follow report.1 applied
    simp [applyForeground,hends,eq_comm]

@[simp] theorem applyElement_watch (change : Option (NodeId × Target))
    (applied : Applied) : (applyElement follow change applied).1.watch=follow.watch := by
  cases change with
  | none => rfl
  | some found =>
    simp only [applyElement]
    split
    · exact retarget_watch _ _ _
    · rfl

@[simp] theorem applyOwedDone_watch (generation : Nat)
    (done : Option NodeId) : (applyOwedDone follow generation done).watch=follow.watch := by
  cases done with
  | none => rfl
  | some node =>
    simp only [applyOwedDone]
    split <;> rfl

end

theorem applyBefore_watch (facts : Facts) (generation : Nat) (change : Change) :
    (applyBefore facts generation change).1.follow.watch =
      facts.follow.watch.endedOn change.movesFrom := by
  simp only [applyBefore,applyOwedDone_watch,applyElement_watch,applyForeground_watch,
    applyFollow_watch,applyReplaced_watch,endedOn_endedOn]
  rfl

section Agreement

/-- The program in flight reads the console poll's last read, found nothing and says so at `now`,
and its commit does not end the watch first. -/
def PollEnds (facts : Facts) (change : Change) (now : Nat) : Prop :=
  ∃ opened last calls, facts.follow.watch=.checking opened (.read last) ∧ last≤now ∧
    change.watch=some (.checked (.watching calls)) ∧ change.movesFrom opened.nodeId=false

variable (watch : Watch)

def LastRead (change : Option WatchChange) (now : Nat) : Prop :=
  ∃ opened last calls, watch=.checking opened (.read last) ∧ last≤now ∧
    change=some (.checked (.watching calls))

variable (facts : Facts) (generation : Nat) (change : Change)

theorem lastRead_iff (now : Nat) :
    LastRead (applyBefore facts generation change).1.follow.watch change.watch now ↔
      PollEnds facts change now := by
  rw [applyBefore_watch]
  constructor
  · rintro ⟨opened,last,calls,hwatch,hlast,hchange⟩
    unfold endedOn at hwatch
    split at hwatch
    · cases hwatch
    next hends =>
    refine ⟨opened,last,calls,hwatch,hlast,hchange,?_⟩
    simpa [hwatch,openWatch] using hends
  · rintro ⟨opened,last,calls,hwatch,hlast,hchange,hmoves⟩
    refine ⟨opened,last,calls,?_,hlast,hchange⟩
    simp [endedOn,hwatch,openWatch,hmoves]

theorem Watch.opening_untimed (new : OpenWatch) (console : Bool) (clock : Clock) :
    (opening new console clock).untimed=opening new console Option.none := by
  cases console <;> cases clock <;> rfl

/-- The two clocks agree but on the poll's last read. -/
theorem applyWatch_agrees_iff (change : Option WatchChange) (now : Nat) (applied : Applied) :
    ((applyWatch watch change (some now) applied).1.untimed =
        (applyWatch watch change none applied).1.untimed ∧
      (applyWatch watch change (some now) applied).2 =
        (applyWatch watch change none applied).2) ↔ ¬LastRead watch change now := by
  cases change with
  | none => simp [applyWatch,LastRead]
  | some change =>
    cases change with
    | opens new console =>
      have hopened : (watch.opened new console (some now)).1.untimed =
          (watch.opened new console none).1.untimed := by
        unfold opened
        split
        · rw [opening_untimed,opening_untimed]
        · rfl
      have hflag : (watch.opened new console (some now)).2=(watch.opened new console none).2 := by
        unfold opened
        split <;> rfl
      simp [applyWatch,LastRead,hopened,hflag]
    | take node => simp [applyWatch,LastRead]
    | checked found =>
      cases watch with
      | checking opened resume =>
        cases found with
        | answered reply calls awaitedAtUs => simp [applyWatch,LastRead,checked]
        | watching calls =>
          cases resume with
          | read last =>
            by_cases hlast : last≤now <;> simp [applyWatch,LastRead,checked,resumed,hlast,untimed]
          | _ => simp [applyWatch,LastRead,checked,resumed]
      | _ => simp [applyWatch,LastRead,checked]

theorem apply_watch (clock : Clock) :
    (apply facts generation change clock).1.untimed =
        {(applyBefore facts generation change).1 with
          follow := {(applyBefore facts generation change).1.follow with
            watch := (applyWatch (applyBefore facts generation change).1.follow.watch change.watch
              clock (applyBefore facts generation change).2).1.untimed}} ∧
      (apply facts generation change clock).2 =
        (applyWatch (applyBefore facts generation change).1.follow.watch change.watch clock
          (applyBefore facts generation change).2).2 := ⟨rfl,rfl⟩

theorem apply_agrees (now : Nat) :
    ((apply facts generation change (some now)).1.untimed =
        (apply facts generation change none).1.untimed ∧
      (apply facts generation change (some now)).2=(apply facts generation change none).2) ↔
      ¬LastRead (applyBefore facts generation change).1.follow.watch change.watch now := by
  rw [← applyWatch_agrees_iff _ _ _ (applyBefore facts generation change).2,
    (apply_watch facts generation change (some now)).1,(apply_watch facts generation change none).1,
    (apply_watch facts generation change (some now)).2,(apply_watch facts generation change none).2]
  refine and_congr_left' ⟨fun h => ?_,fun h => ?_⟩
  · exact congrArg (fun facts => facts.follow.watch) h
  · rw [h]

/-- The reducer, on its clock, and the program, on none, make the same of a commit up to the
watch's times, but where the commit is that of the poll's last read. -/
theorem apply_agrees_iff (facts : Facts) (generation : Nat) (change : Change) (now : Nat) :
    ((apply facts generation change (some now)).1.untimed =
        (apply facts generation change none).1.untimed ∧
      (apply facts generation change (some now)).2=(apply facts generation change none).2) ↔
      ¬PollEnds facts change now := by
  rw [apply_agrees,lastRead_iff]

/-- A console poll held for its last read: the key was pressed at 1,000 ms, and the read became due
50 ms later. -/
def lastRead : Facts :=
  {follow := {watch :=
    (reach (.polling ⟨⟨.shell,7⟩,1,1,⟨1000⟩,{},{}⟩ 1050000 1050000) 1050000).1}}

/-- The reducer ends the poll, and the program's copy goes on polling. -/
theorem last_read_diverges :
    (apply lastRead 0 {watch := some (.checked (.watching {}))} (some 1050000)).1.follow.watch =
        .none ∧
      (apply lastRead 0 {watch := some (.checked (.watching {}))} none).1.follow.watch =
        .polling ⟨⟨.shell,7⟩,1,1,⟨1000⟩,{},{}⟩ 0 1050000 ∧
      (apply lastRead 0 {watch := some (.checked (.watching {}))} (some 1050000)).2.resumed =
        false ∧
      (apply lastRead 0 {watch := some (.checked (.watching {}))} none).2.resumed=true := by
  decide +kernel

end Agreement

end Verbatim.Outpost
