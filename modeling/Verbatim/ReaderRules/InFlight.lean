import Verbatim.Framework.Machine

namespace Verbatim.ReaderRules

open Framework Option Bool Nat

abbrev Window := {handle : Int // handle≠0}

def graceUs : Nat := 500000

theorem graceUs_pos : 0<graceUs := by decide

/-- One request of one worker generation: what a worker's results name. -/
structure Request where
  generation : Nat
  number : Nat
  deriving DecidableEq

/-- The item's walk, as far as its publication at its bound goes. -/
inductive Walk where
  | unarmed
  | armed (bound : Nat)
  | published
  deriving DecidableEq

/-- How the item in flight is judged, and when next. -/
inductive Moved where
  | never
  | unknown
  | known (window : Window) (next : Nat)
  | named (next : Nat)
  deriving DecidableEq

/-- The window an item is started with, which it is judged by. -/
inductive RuleWindow where
  | never
  | unknown
  | known (window : Window)
  | named
  deriving DecidableEq

inductive Reason where
  | deadline
  | movedOn
  | hung
  deriving DecidableEq

inductive Ask where
  | judge (request : Request) (window : Option Window)
  | publish (request : Request) (thenAbandon : Option Reason)
  deriving DecidableEq

/-- An abandonment: the generation in charge died and the item left. -/
structure Abandoned (T : Type) where
  dead : Nat
  replacement : Nat
  reason : Reason
  item : T
  published : Bool
  deriving DecidableEq

inductive Decision (T : Type) where
  | nothing
  | ask (ask : Ask)
  | abandon (abandoned : Abandoned T)
  deriving DecidableEq

structure Running (T : Type) where
  request : Request
  started : Nat
  deadline : Nat
  walk : Walk
  moved : Moved
  item : T
  deriving DecidableEq

/-- A reader's work in flight. The generation and request counters are
unbounded here: a saturated one needs 2^64 requests. -/
structure InFlight (T : Type) where
  generation : Nat
  requests : Nat
  running : Option (Running T)
  deriving DecidableEq

variable {T : Type}

def Walk.isArmed : Walk → Bool
  | .armed _ => true
  | _ => false

def Walk.pastBound (now : Nat) : Walk → Bool
  | .armed bound => bound≤now
  | _ => false

namespace InFlight

def new : InFlight T := ⟨0,0,none⟩

variable (f : InFlight T)

def setRunning (running : Running T) : InFlight T :=
  {f with running := some running}

def nextRequest : InFlight T × Request :=
  ({f with requests := f.requests+1},⟨f.generation,f.requests+1⟩)

def startMoved (window : RuleWindow) (next : Nat) : Moved :=
  match window with
  | .never => .never
  | .unknown => .unknown
  | .known window => .known window next
  | .named => .named next

def start (item : T) (deadline : Nat) (window : RuleWindow) (now : Nat) : InFlight T × Request :=
  let (f,request) := f.nextRequest
  (f.setRunning
    {request, started := now, deadline := satAdd now deadline, walk := .unarmed,
      moved := startMoved window (satAdd now graceUs), item},request)

def handOn : InFlight T × Option Request :=
  match f.running with
  | none => (f,none)
  | some running =>
      let request := ⟨f.generation,f.requests+1⟩
      ({f with requests := f.requests+1, running := some {running with request}},some request)

def withItem (change : T → T) : InFlight T :=
  {f with running := f.running.map (fun running => {running with item := change running.item})}

variable (request : Request)

def runningOf : Option (Running T) :=
  f.running.filter fun running => running.request=request

def abandon (reason : Reason) : InFlight T × Decision T :=
  match f.running with
  | none => (f,.nothing)
  | some running =>
      ({f with generation := f.generation+1, running := none},
        .abandon ⟨f.generation,f.generation+1,reason,running.item,running.walk=.published⟩)

variable (now : Nat)

/-- The judgements at `now`, the first that applies deciding: the deadline, the
walk's bound, then the window. An armed walk is published before any abandonment. -/
def judge : InFlight T × Decision T :=
  match f.running with
  | none => (f,.nothing)
  | some running =>
      if running.deadline≤now then
        if running.walk.isArmed then
          (f.setRunning {running with walk := .unarmed},
            .ask (.publish running.request (some .deadline)))
        else f.abandon .deadline
      else if running.walk.pastBound now then
        (f.setRunning {running with walk := .unarmed},.ask (.publish running.request none))
      else match running.moved with
        | .known window next =>
            if next≤now then
              (f.setRunning {running with moved := .known window (satAdd now graceUs)},
                .ask (.judge running.request (some window)))
            else (f,.nothing)
        | .named next =>
            if next≤now then
              (f.setRunning {running with moved := .named (satAdd now graceUs)},
                .ask (.judge running.request none))
            else (f,.nothing)
        | _ => (f,.nothing)

def learned (window : Window) (now : Nat) : InFlight T × Decision T :=
  match f.runningOf request with
  | none => (f,.nothing)
  | some running =>
      if running.moved=.unknown then
        let graceEnd := satAdd running.started graceUs
        let f := f.setRunning {running with moved := .known window (max graceEnd now)}
        if graceEnd≤now then f.judge now else (f,.nothing)
      else (f,.nothing)

/-- `request`'s walk passed its checks; a published walk is never armed again. -/
def armed (bound : Nat) : InFlight T :=
  match f.runningOf request with
  | none => f
  | some running =>
      if running.walk=.published then f
      else f.setRunning {running with walk := .armed bound}

/-- `request`'s walk returned, `past` its bound or not. -/
def walkReturned (past : Bool) : InFlight T × Decision T :=
  match f.runningOf request with
  | none => (f,.nothing)
  | some running =>
      if running.walk.isArmed then
        (f.setRunning {running with walk := .unarmed},
          if past then .ask (.publish request none) else .nothing)
      else (f,.nothing)

def tick : InFlight T × Decision T := f.judge now

def judged (verdict : Option Reason) : InFlight T × Decision T :=
  match f.runningOf request with
  | none => (f,.nothing)
  | some running =>
      match verdict with
      | none => (f,.nothing)
      | some reason =>
          if running.walk.isArmed then
            (f.setRunning {running with walk := .unarmed},.ask (.publish request (some reason)))
          else f.abandon reason

/-- Applies the answer to a publication, `none` when `request` is not running. -/
def publication (got : Bool) (thenAbandon : Option Reason) : InFlight T × Option (Decision T) :=
  match f.runningOf request with
  | none => (f,none)
  | some running =>
      let f := if got then f.setRunning {running with walk := .published} else f
      match thenAbandon with
      | some reason => ((f.abandon reason).1,some (f.abandon reason).2)
      | none => (f,some .nothing)

/-- The answer to a publication asked for `request`, then what is due at `now`. -/
def published (got : Bool) (thenAbandon : Option Reason) (now : Nat) : InFlight T × Decision T :=
  match f.publication request got thenAbandon with
  | (f,some .nothing) => f.judge now
  | (f,decision) => (f,decision.getD .nothing)

/-- The publication's answer for a reader that has stopped and judges nothing more. -/
def publishedJudgingNothing (got : Bool) (thenAbandon : Option Reason) : InFlight T × Decision T :=
  let (f,decision) := f.publication request got thenAbandon
  (f,decision.getD .nothing)

def endOf : InFlight T × Option (T × Bool) :=
  match f.runningOf request with
  | none => (f,none)
  | some running =>
      ({f with running := none},some (running.item,decide (running.walk=.published)))

/-- A new generation in charge without an abandonment. -/
def succeed : InFlight T × Nat :=
  ({f with generation := f.generation+1},f.generation+1)

def accepts : Bool :=
  f.running.any fun running => running.request=request ∧ running.walk≠.published

def nextWake : Option Nat :=
  f.running.map (fun running =>
    let due := match running.walk with
      | .armed bound => min running.deadline bound
      | _ => running.deadline
    match running.moved with
    | .known _ next => min due next
    | .named next => min due next
    | _ => due)

/-- The item under way as its reader's results see it: its request, itself, and whether
its walk was published. -/
def underWay : Option (Request × T × Bool) :=
  f.running.map fun running => (running.request,running.item,decide (running.walk=.published))

/-- What a decision means: an abandonment takes the item out and the generation on, and
anything else leaves the item, its request and its generation as they were. -/
def Decides (f f' : InFlight T) : Decision T → Prop
  | .abandon abandoned => ∃ running, f.running=some running ∧
      f'.running=none ∧ f'.generation=f.generation+1 ∧
      abandoned.item=running.item ∧
      abandoned.published=decide (running.walk=.published)
  | _ => f'.underWay=f.underWay ∧ f'.generation=f.generation

variable (f : InFlight T)

theorem decides_refl : f.Decides f .nothing := ⟨rfl,rfl⟩

theorem abandon_decides (reason : Reason) :
    f.Decides (f.abandon reason).1 (f.abandon reason).2 := by
  cases h : f.running with
  | none | some running => simp [abandon,h,Decides]

/-- Only the walk of an item not published, or its rule, changes under `setRunning`. -/
theorem underWay_setRunning (running running' : Running T) (h : f.running=some running)
    (hr : running'.request=running.request) (hi : running'.item=running.item)
    (hw : running'.walk=.published ↔ running.walk=.published) :
    (f.setRunning running').underWay=f.underWay := by
  simp [underWay,setRunning,h,hr,hi,hw]

theorem ne_published_of_isArmed {walk : Walk} (h : walk.isArmed=true) : walk≠.published := by
  rintro rfl
  cases h

theorem isArmed_of_pastBound {walk : Walk} {now : Nat} (h : walk.pastBound now=true) :
    walk.isArmed=true := by
  cases walk <;> simp_all [Walk.pastBound,Walk.isArmed]

theorem disarm_underWay (running : Running T) (h : f.running=some running)
    (ha : running.walk.isArmed=true) :
    (f.setRunning {running with walk := .unarmed}).underWay=f.underWay :=
  underWay_setRunning f running _ h rfl rfl (by simp [ne_published_of_isArmed ha])

variable {running : Running T} {request : Request}

theorem runningOf_eq_some {f : InFlight T} :
    f.runningOf request=some running ↔ f.running=some running ∧ running.request=request := by
  simp [runningOf,filter_eq_some_iff]

theorem setRunning_self {f : InFlight T} (h : f.running=some running) : f.setRunning running=f := by
  cases f
  simp only at h
  rw [setRunning,h]

/-- What a judgement does to the item running: its rule may move, an armed walk is asked to be
published, and only a walk not armed is abandoned. -/
inductive Judges (f : InFlight T) : InFlight T → Decision T → Prop
  | idle (hr : f.running=none) : Judges f f .nothing
  | stays {running : Running T} (hr : f.running=some running) (moved : Moved) :
      Judges f (f.setRunning {running with moved}) .nothing
  | asks {running : Running T} (hr : f.running=some running) (moved : Moved)
      (window : Option Window) :
      Judges f (f.setRunning {running with moved}) (.ask (.judge running.request window))
  | publishes {running : Running T} (hr : f.running=some running)
      (ha : running.walk.isArmed=true) (moved : Moved) (thenAbandon : Option Reason) :
      Judges f (f.setRunning {running with moved, walk := .unarmed})
        (.ask (.publish running.request thenAbandon))
  | abandons {running : Running T} (hr : f.running=some running)
      (ha : running.walk.isArmed=false) (reason : Reason) :
      Judges f {f with generation := f.generation+1, running := none}
        (.abandon ⟨f.generation,f.generation+1,reason,running.item,running.walk=.published⟩)

theorem judges_self : Judges f f .nothing := by
  cases hr : f.running with
  | none => exact .idle hr
  | some running =>
    have hstays := Judges.stays hr running.moved
    rwa [setRunning_self hr] at hstays

theorem abandon_judges {f : InFlight T} {running : Running T} (hr : f.running=some running)
    (ha : running.walk.isArmed=false) (reason : Reason) :
    Judges f (f.abandon reason).1 (f.abandon reason).2 := by
  simp only [abandon,hr]
  exact .abandons hr ha reason

theorem judge_judges (now : Nat) : Judges f (f.judge now).1 (f.judge now).2 := by
  cases hr : f.running with
  | none =>
    simp only [judge,hr]
    exact .idle hr
  | some running =>
    simp only [judge,hr]
    split
    · split
      next ha => exact .publishes hr ha running.moved _
      next ha => exact abandon_judges hr (Bool.eq_false_iff.mpr ha) .deadline
    split
    next hb => exact .publishes hr (isArmed_of_pastBound hb) running.moved _
    split <;> try split
    all_goals first
      | exact judges_self f
      | exact .asks hr _ _

variable {f f' : InFlight T} {decision : Decision T}

theorem Judges.of_moved {moved : Moved} (hr : f.running=some running)
    (hjudges : Judges (f.setRunning {running with moved}) f' decision) : Judges f f' decision := by
  cases hjudges with
  | idle hnone => cases hnone
  | stays hr' moved' =>
    cases hr'
    exact .stays hr moved'
  | asks hr' moved' window =>
    cases hr'
    exact .asks hr moved' window
  | publishes hr' ha moved' thenAbandon =>
    cases hr'
    exact .publishes hr ha moved' thenAbandon
  | abandons hr' ha reason =>
    cases hr'
    exact .abandons hr ha reason

theorem Judges.decides (hjudges : Judges f f' decision) : f.Decides f' decision := by
  cases hjudges with
  | idle hr => exact decides_refl f
  | stays hr moved | asks hr moved window =>
    exact ⟨underWay_setRunning f _ _ hr rfl rfl Iff.rfl,rfl⟩
  | publishes hr ha moved thenAbandon =>
    exact ⟨underWay_setRunning f _ _ hr rfl rfl (by simp [ne_published_of_isArmed ha]),rfl⟩
  | abandons hr ha reason => exact ⟨_,hr,rfl,rfl,rfl,rfl⟩

/-- The walk of the item running armed, disarmed or left as it was, with nothing decided. -/
inductive Walks (f : InFlight T) : InFlight T → Prop
  | same : Walks f f
  | arms {running : Running T} (hr : f.running=some running) (hp : running.walk≠.published)
      (bound : Nat) : Walks f (f.setRunning {running with walk := .armed bound})
  | disarms {running : Running T} (hr : f.running=some running)
      (ha : running.walk.isArmed=true) : Walks f (f.setRunning {running with walk := .unarmed})

theorem Walks.decides (hwalks : Walks f f') : f.Decides f' .nothing := by
  cases hwalks with
  | same => exact decides_refl f
  | arms hr hp bound => exact ⟨underWay_setRunning f _ _ hr rfl rfl (by simp [hp]),rfl⟩
  | disarms hr ha => exact ⟨disarm_underWay f _ hr ha,rfl⟩

variable (f : InFlight T) (now : Nat) (request : Request)

theorem judge_decides : f.Decides (f.judge now).1 (f.judge now).2 := (f.judge_judges now).decides

theorem learned_judges (window : Window) (now : Nat) :
    Judges f (f.learned request window now).1 (f.learned request window now).2 := by
  cases h : f.runningOf request with
  | none =>
    simp only [learned,h]
    exact judges_self f
  | some running =>
    have hr := (runningOf_eq_some.mp h).1
    simp only [learned,h]
    split
    · split
      · exact (judge_judges _ now).of_moved hr
      · exact .stays hr _
    · exact judges_self f

theorem judged_judges (verdict : Option Reason) :
    Judges f (f.judged request verdict).1 (f.judged request verdict).2 := by
  cases h : f.runningOf request with
  | none =>
    simp only [judged,h]
    exact judges_self f
  | some running =>
    obtain ⟨hr,rfl⟩ := runningOf_eq_some.mp h
    cases verdict with
    | none =>
      simp only [judged,h]
      exact judges_self f
    | some reason =>
      simp only [judged,h]
      split
      next ha => exact .publishes hr ha running.moved _
      next ha => exact abandon_judges hr (Bool.eq_false_iff.mpr ha) reason

theorem learned_decides (window : Window) (now : Nat) :
    f.Decides (f.learned request window now).1 (f.learned request window now).2 :=
  (f.learned_judges request window now).decides

theorem armed_walks (bound : Nat) : Walks f (f.armed request bound) := by
  cases h : f.runningOf request with
  | none =>
    simp only [armed,h]
    exact .same
  | some running =>
    simp only [armed,h]
    split
    · exact .same
    next hp => exact .arms (runningOf_eq_some.mp h).1 hp bound

theorem armed_decides (bound : Nat) : f.Decides (f.armed request bound) .nothing :=
  (f.armed_walks request bound).decides

theorem judged_decides (verdict : Option Reason) :
    f.Decides (f.judged request verdict).1 (f.judged request verdict).2 :=
  (f.judged_judges request verdict).decides

def mark (got : Bool) : InFlight T :=
  match f.runningOf request with
  | none => f
  | some running => if got then f.setRunning {running with walk := .published} else f

theorem publication_eq {f : InFlight T} (h : f.runningOf request=some running) (got : Bool)
    (thenAbandon : Option Reason) : f.publication request got thenAbandon =
      (thenAbandon.elim (f.mark request got,.nothing) (f.mark request got).abandon).map
        id some := by
  cases thenAbandon <;> simp only [publication,mark,h] <;> rfl

theorem published_eq {f : InFlight T} (h : f.runningOf request=some running) (got : Bool)
    (thenAbandon : Option Reason) (now : Nat) : f.published request got thenAbandon now =
      thenAbandon.elim ((f.mark request got).judge now) (f.mark request got).abandon := by
  rw [published,publication_eq request h]
  cases thenAbandon with
  | none => rfl
  | some reason =>
    have hr := (runningOf_eq_some.mp h).1
    cases got <;> simp [mark,h,abandon,hr,setRunning]

theorem published_decides (got : Bool) (thenAbandon : Option Reason) (now : Nat) :
    (f.mark request got).Decides (f.published request got thenAbandon now).1
      (f.published request got thenAbandon now).2 := by
  cases h : f.runningOf request with
  | none => simp [published,publication,mark,h,decides_refl]
  | some running =>
    rw [published_eq request h]
    cases thenAbandon with
    | none => exact judge_decides _ now
    | some reason => exact abandon_decides _ reason

def Calm : Prop := ∀ t, f.nextWake=some t → now<t

theorem calm_of_none {f : InFlight T} (h : f.running=none) (now : Nat) : f.Calm now := by
  intro t ht
  simp [nextWake,h] at ht

theorem nextWake_le_deadline (h : f.running=some running) :
    ∃ t, f.nextWake=some t ∧ t≤running.deadline := by
  have hbound : (match running.walk with
      | .armed bound => min running.deadline bound
      | _ => running.deadline)≤running.deadline := by
    cases running.walk with
    | armed bound => exact min_le_left _ _
    | _ => exact le_refl _
  simp only [nextWake,h,map_some,some.injEq,exists_eq_left']
  cases running.moved with
  | known window next | named next => exact (min_le_left _ _).trans hbound
  | _ => exact hbound

theorem calm_setRunning (running : Running T) (now : Nat) (hd : now<running.deadline)
    (hb : running.walk.pastBound now=false)
    (hm : match running.moved with | .known _ next | .named next => now<next | _ => True) :
    (f.setRunning running).Calm now := by
  intro t ht
  simp only [nextWake,setRunning,map_some,some.injEq] at ht
  have hbound : now < match running.walk with
      | .armed bound => min running.deadline bound
      | _ => running.deadline := by
    cases hw : running.walk with
    | armed bound =>
      simp only [hw,Walk.pastBound,decide_eq_false_iff_not,Nat.not_le] at hb
      exact Nat.lt_min.mpr ⟨hd,hb⟩
    | _ => exact hd
  subst ht
  cases hmoved : running.moved with
  | known window next | named next => exact Nat.lt_min.mpr ⟨hbound,by simpa [hmoved] using hm⟩
  | _ => exact hbound

/-- What a judgement at `now` leaves: nothing due, or the item running asked to publish. -/
def Leaves : Decision T → Prop
  | .ask (.publish request _) => ∃ running, f.running=some running ∧ running.request=request
  | _ => f.Calm now

theorem abandon_leaves (reason : Reason) (now : Nat) :
    (f.abandon reason).1.Leaves now (f.abandon reason).2 := by
  cases h : f.running with
  | none => simpa [abandon,h,Leaves] using calm_of_none h now
  | some running => simpa [abandon,h,Leaves] using calm_of_none rfl now

theorem judge_leaves (hnow : now<u64Max) : (f.judge now).1.Leaves now (f.judge now).2 := by
  have hlater : now<satAdd now graceUs := lt_satAdd now graceUs hnow graceUs_pos
  cases h : f.running with
  | none => simpa [judge,h,Leaves] using calm_of_none h now
  | some running =>
    simp only [judge,h]
    split
    · split
      · exact ⟨_,rfl,rfl⟩
      · exact abandon_leaves f .deadline now
    next hdead =>
      split
      · exact ⟨_,rfl,rfl⟩
      next hpast =>
        have hd : now<running.deadline := not_le.mp hdead
        have hb : running.walk.pastBound now=false := eq_false_iff.mpr hpast
        -- The item stays as it is unless its window is judged now.
        have hstays : (match running.moved with
            | .known _ next | .named next => now<next
            | _ => True) → f.Calm now := fun hm => by
          rw [← setRunning_self h]
          exact calm_setRunning f running now hd hb hm
        cases hmoved : running.moved with
        | known window next | named next =>
          dsimp only
          split
          · exact calm_setRunning f _ now hd hb hlater
          next hn => exact hstays (by simpa [hmoved] using hn)
        | _ => exact hstays (by simp [hmoved])

theorem judged_leaves {f : InFlight T} {request : Request}
    (h : f.runningOf request=some running) (reason : Reason) :
    (f.judged request (some reason)).1.Leaves now (f.judged request (some reason)).2 := by
  simp only [judged,h]
  split
  · exact ⟨_,rfl,(runningOf_eq_some.mp h).2⟩
  · exact abandon_leaves f reason now

theorem published_leaves {f : InFlight T} {request : Request} (hnow : now<u64Max)
    (h : f.runningOf request=some running) (got : Bool) (thenAbandon : Option Reason) :
    (f.published request got thenAbandon now).1.Leaves now
      (f.published request got thenAbandon now).2 := by
  rw [published_eq request h]
  cases thenAbandon with
  | none => exact judge_leaves _ now hnow
  | some reason => exact abandon_leaves _ reason now

end InFlight

end Verbatim.ReaderRules
