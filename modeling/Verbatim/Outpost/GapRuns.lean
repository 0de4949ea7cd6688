import Verbatim.Outpost.Gap

namespace Verbatim.Outpost

open Framework List

theorem answers_true (reportedUs copyUs : Nat) :
    answers reportedUs copyUs=true ↔ copyUs≤reportedUs+answeredBeforeUs ∧ copyUs≤u64Max := by
  unfold answers satAdd
  rw [decide_eq_true_eq,Nat.le_min]

theorem answers_iff {reportedUs copyUs : Nat} (hcopy : copyUs≤u64Max) :
    answers reportedUs copyUs=true ↔ copyUs≤reportedUs+answeredBeforeUs := by
  simp only [answers_true,hcopy,and_true]

theorem answers_max (a b copyUs : Nat) :
    answers (max a b) copyUs=(answers a copyUs || answers b copyUs) := by
  rw [Bool.eq_iff_iff,Bool.or_eq_true,answers_true,answers_true,answers_true,← or_and_right]
  exact and_congr_left' (by omega)

/-- A fact that may answer a copy: a report in its top-level window, or a drop for no window. -/
inductive Note where
  | report (atUs : Nat)
  | drop (atUs : Nat)
  deriving DecidableEq

namespace Note

def atUs : Note → Nat
  | report atUs | drop atUs => atUs

def isReport : Note → Bool
  | report _ => true
  | drop _ => false

end Note

/-- Whether a fact of one of these times answers a copy of `copyUs`. -/
def AnsweredBy (copyUs : Nat) (times : List Nat) : Prop :=
  ∃ atUs∈times, copyUs≤atUs+answeredBeforeUs

instance (copyUs : Nat) (times : List Nat) : Decidable (AnsweredBy copyUs times) :=
  inferInstanceAs (Decidable (∃ atUs∈times, _))

namespace GapRecord

variable (gap : GapRecord) (window topLevel : Int) (copyUs : Nat) (trace : TraceId)

/-- One fact is noted, with the gap read it makes. -/
def note : Note → GapRecord × List GapRead
  | .report atUs => (gap.report (some topLevel) atUs false,[])
  | .drop atUs => ((gap.noWindow atUs).1,(gap.noWindow atUs).2.toList)

def noteAll : GapRecord → List Note → GapRecord × List GapRead
  | gap,[] => (gap,[])
  | gap,fact::facts =>
      ((noteAll (gap.note topLevel fact).1 facts).1,
        (gap.note topLevel fact).2++(noteAll (gap.note topLevel fact).1 facts).2)

/-- The reads a dropped copy makes by itself. -/
def copyReads : List GapRead :=
  if (gap.copyDropped window topLevel copyUs trace).2=.readNow then [⟨window,copyUs⟩] else []

/-- A copy noted between `before` and `after`. -/
def around (before after : List Note) : GapRecord × List GapRead :=
  let noted := gap.noteAll topLevel before
  let copied := (noted.1.copyDropped window topLevel copyUs trace).1
  ((copied.noteAll topLevel after).1,
    noted.2++noted.1.copyReads window topLevel copyUs trace++(copied.noteAll topLevel after).2)

/-- The newest report remembered for a top-level window. -/
def remembered : Option Nat :=
  (gap.reported.find? fun row => row.1=topLevel).map fun row => row.2

def reportAnswers : Bool :=
  (gap.reported.find? fun row => row.1=topLevel).any fun row => answers row.2 copyUs

def dropAnswers : Bool := gap.lastNoWindowUs.any fun noWindowUs => answers noWindowUs copyUs

variable {gap window topLevel copyUs trace}

theorem noteReport_answers (reported : List (Int × Nat)) (atUs : Nat) :
    ((noteReport reported topLevel atUs).find? fun row => row.1=topLevel).any
        (fun row => answers row.2 copyUs) =
      ((reported.find? fun row => row.1=topLevel).any (fun row => answers row.2 copyUs) ||
        answers atUs copyUs) := by
  unfold noteReport
  by_cases hany : reported.any fun row => row.1=topLevel
  · rw [if_pos hany]
    induction reported with
    | nil => cases hany
    | cons row rows ih =>
      by_cases hrow : row.1=topLevel
      · simp [hrow,answers_max]
      · simpa [hrow] using ih (by simpa [hrow] using hany)
  · rw [if_neg hany]
    have hnone : reported.find? (fun row => row.1=topLevel)=none :=
      find?_eq_none.mpr fun row hrow htop => hany (any_eq_true.mpr ⟨row,hrow,htop⟩)
    simp [find?_append,hnone]

theorem note_closed (copyUs : Nat) (hopen : gap.opened=none) (fact : Note) :
    (gap.note topLevel fact).1.opened=none ∧ (gap.note topLevel fact).2=[] ∧
      (gap.note topLevel fact).1.bounds=gap.bounds ∧
      (gap.note topLevel fact).1.reportAnswers topLevel copyUs =
        (gap.reportAnswers topLevel copyUs || (fact.isReport && answers fact.atUs copyUs)) ∧
      (gap.note topLevel fact).1.dropAnswers copyUs =
        (gap.dropAnswers copyUs || (!fact.isReport && answers fact.atUs copyUs)) := by
  cases fact with
  | report atUs =>
    refine ⟨by simp [note,report,hopen],rfl,rfl,?_,by simp [note,report,dropAnswers,Note.isReport]⟩
    exact noteReport_answers gap.reported atUs
  | drop atUs =>
    have hdrop : gap.noWindow atUs =
        ({gap with lastNoWindowUs := some (max (gap.lastNoWindowUs.getD atUs) atUs)},none) := by
      simp [noWindow,hopen]
    cases hlast : gap.lastNoWindowUs <;>
      simp [note,hdrop,hopen,reportAnswers,dropAnswers,Note.isReport,Note.atUs,hlast,answers_max]

theorem noteAll_closed (topLevel : Int) (copyUs : Nat) (facts : List Note) :
    ∀ {gap : GapRecord}, gap.opened=none →
    (gap.noteAll topLevel facts).1.opened=none ∧ (gap.noteAll topLevel facts).2=[] ∧
      (gap.noteAll topLevel facts).1.bounds=gap.bounds ∧
      (gap.noteAll topLevel facts).1.reportAnswers topLevel copyUs =
        (gap.reportAnswers topLevel copyUs ||
          facts.any fun fact => fact.isReport && answers fact.atUs copyUs) ∧
      (gap.noteAll topLevel facts).1.dropAnswers copyUs=(gap.dropAnswers copyUs ||
          facts.any fun fact => !fact.isReport && answers fact.atUs copyUs) := by
  induction facts with
  | nil => intro gap hopen; simp [noteAll,hopen]
  | cons fact facts ih =>
    intro gap hopen
    obtain ⟨hnone,hreads,hbounds,hreport,hdrop⟩ := note_closed copyUs hopen fact
    obtain ⟨hnone',hreads',hbounds',hreport',hdrop'⟩ := ih hnone
    refine ⟨hnone',by simp [noteAll,hreads,hreads'],hbounds'.trans hbounds,?_,?_⟩
    · simp only [noteAll,any_cons,hreport',hreport,Bool.or_assoc]
    · simp only [noteAll,any_cons,hdrop',hdrop,Bool.or_assoc]

/-- A record waiting for the copy's focus stays open until the first fact that answers it, which
closes it, and reads it when it is a drop. -/
theorem noteAll_open (facts : List Note) : ∀ (gap : GapRecord) {record : GapOpen},
    gap.opened=some record → record.topLevel=topLevel → record.awaits=.focus →
    (gap.noteAll topLevel facts).1.opened =
        (if facts.any (fun fact => answers fact.atUs record.stampUs) then none else some record) ∧
      (gap.noteAll topLevel facts).2 =
        match facts.find? (fun fact => answers fact.atUs record.stampUs) with
        | some (.drop _) => [⟨record.window,record.stampUs⟩]
        | _ => [] := by
  induction facts with
  | nil => intro gap record hopen htop hfocus; simp [noteAll,hopen]
  | cons fact facts ih =>
    intro gap record hopen htop hfocus
    by_cases hans : answers fact.atUs record.stampUs=true
    · have hnone : (gap.note topLevel fact).1.opened=none := by
        cases fact <;> simp_all [note,report,noWindow,closes,Note.atUs,Option.filter]
      obtain ⟨hnone',hreads',-⟩ := noteAll_closed topLevel 0 facts hnone
      refine ⟨by simp [noteAll,hnone',hans],?_⟩
      simp only [noteAll,hreads',find?_cons,hans]
      cases fact <;> simp_all [note,noWindow,Note.atUs,Option.filter]
    · have hsame : (gap.note topLevel fact).1.opened=some record ∧
          (gap.note topLevel fact).2=[] := by
        cases fact <;> simp_all [note,report,noWindow,closes,Note.atUs,Option.filter]
      obtain ⟨hopen',hreads'⟩ := ih _ hsame.1 htop hfocus
      simp [noteAll,hsame.2,hopen',hreads',hans]

def copyOpens (gap : GapRecord) (window topLevel : Int) (copyUs : Nat) (trace : TraceId) :
    GapOpen :=
  ⟨window,topLevel,copyUs,trace,satAdd copyUs boundUs,.waiting,gap.bounds+1,.focus⟩

/-- What a copy comes to: a report known before it answers it first, then a drop known before it,
then the first of the later facts that does. -/
theorem around_outcome (window topLevel : Int) (copyUs : Nat) (trace : TraceId)
    (hopen : gap.opened=none) (before after : List Note) :
    ((gap.around window topLevel copyUs trace before after).1.opened,
      (gap.around window topLevel copyUs trace before after).2) =
    if gap.reportAnswers topLevel copyUs ||
        before.any (fun fact => fact.isReport && answers fact.atUs copyUs) then (none,[])
    else if gap.dropAnswers copyUs ||
        before.any (fun fact => !fact.isReport && answers fact.atUs copyUs) then
      (none,[⟨window,copyUs⟩])
    else
      (if after.any (fun fact => answers fact.atUs copyUs) then none
        else some (gap.copyOpens window topLevel copyUs trace),
      match after.find? (fun fact => answers fact.atUs copyUs) with
      | some (.drop _) => [⟨window,copyUs⟩]
      | _ => []) := by
  obtain ⟨hnone,hreads,hbounds,hreport,hdrop⟩ := noteAll_closed topLevel copyUs before hopen
  rw [← hreport,← hdrop]
  have hcopy : (gap.noteAll topLevel before).1.copyDropped window topLevel copyUs trace =
      (gap.noteAll topLevel before).1.lookBack window topLevel copyUs trace := by
    simp [copyDropped,hnone]
  simp only [around,copyReads,hcopy,hreads,nil_append]
  generalize (gap.noteAll topLevel before).1=noted at hnone hbounds
  obtain ⟨hnone',hreads',-⟩ := noteAll_closed topLevel copyUs after hnone
  by_cases hr : noted.reportAnswers topLevel copyUs=true
  · have hback : noted.lookBack window topLevel copyUs trace=(noted,.answered) := if_pos hr
    simp [hback,hr,hnone',hreads']
  by_cases hd : noted.dropAnswers copyUs=true
  · have hback : noted.lookBack window topLevel copyUs trace=(noted,.readNow) :=
      (if_neg hr).trans (if_pos hd)
    simp [hback,hr,hd,hnone',hreads']
  have hback : noted.lookBack window topLevel copyUs trace =
      (noted.openAt window topLevel copyUs trace .focus,.opened (satAdd copyUs boundUs)) :=
    (if_neg hr).trans (if_neg hd)
  obtain ⟨hopened,hlater⟩ :=
    noteAll_open after (noted.openAt window topLevel copyUs trace .focus) rfl rfl rfl
  simp only [hback,hr,hd,hopened,hlater]
  simp [copyOpens,hbounds]

theorem answeredBy_iff (hcopy : copyUs≤u64Max) (times : List Nat) :
    AnsweredBy copyUs times ↔ times.any (fun atUs => answers atUs copyUs)=true := by
  simp [AnsweredBy,answers_iff hcopy]

/-- Whether a copy is answered does not depend on where among the reports and drops it is noted. -/
theorem copy_answered_in_any_order (gap : GapRecord) (window topLevel : Int) (copyUs : Nat)
    (trace : TraceId) (before after : List Note) (hopen : gap.opened=none) (hcopy : copyUs≤u64Max) :
    let ended := gap.around window topLevel copyUs trace before after
    let facts := (before++after).map Note.atUs
    let reports := (gap.remembered topLevel).toList
    let drops := gap.lastNoWindowUs.toList
    ((∀ fact∈before++after, fact.isReport=true) →
      ended.1.opened=if AnsweredBy copyUs (reports++drops++facts) then none
        else some (gap.copyOpens window topLevel copyUs trace)) ∧
    ((∀ fact∈before++after, fact.isReport=false) → ¬AnsweredBy copyUs reports →
      ended.2=if AnsweredBy copyUs (drops++facts) then [⟨window,copyUs⟩] else []) ∧
    ended.2.length≤1 ∧ (ended.1.opened≠none → ¬AnsweredBy copyUs facts) := by
  intro ended facts reports drops
  have houtcome := around_outcome window topLevel copyUs trace hopen before after
  have hreports : reports.any (fun atUs => answers atUs copyUs) =
      gap.reportAnswers topLevel copyUs := by
    simp only [reports,remembered,reportAnswers]
    cases gap.reported.find? (fun row => row.1=topLevel) <;> simp
  have hdrops : drops.any (fun atUs => answers atUs copyUs)=gap.dropAnswers copyUs := by
    simp only [drops,dropAnswers]
    cases gap.lastNoWindowUs <;> simp
  simp only [answeredBy_iff hcopy,any_append,hreports,hdrops,facts,map_append,any_map,
    Function.comp_def]
  have hbefore : before.any (fun fact => answers fact.atUs copyUs) =
      (before.any (fun fact => fact.isReport && answers fact.atUs copyUs) ||
        before.any fun fact => !fact.isReport && answers fact.atUs copyUs) := by
    grind
  have hall (b : Bool) (h : ∀ fact∈before++after, fact.isReport=b) :
      before.any (fun fact => (fact.isReport==!b) && answers fact.atUs copyUs)=false := by
    grind
  change (ended.1.opened,ended.2)=_ at houtcome
  split at houtcome
  next hr =>
    obtain ⟨ho,hl⟩ := Prod.mk.inj houtcome
    grind
  next hr =>
  split at houtcome
  next hd =>
    obtain ⟨ho,hl⟩ := Prod.mk.inj houtcome
    grind
  next hd =>
    obtain ⟨ho,hl⟩ := Prod.mk.inj houtcome
    cases hfind : after.find? (fun fact => answers fact.atUs copyUs) with
    | none =>
      have hafter : after.any (fun fact => answers fact.atUs copyUs)=false :=
        any_eq_false.mpr (find?_eq_none.mp hfind)
      grind
    | some fact =>
      have hans : answers fact.atUs copyUs=true := by simpa using find?_some hfind
      have hfact : fact∈after := mem_of_find?_eq_some hfind
      have hafter : after.any (fun fact => answers fact.atUs copyUs)=true :=
        any_eq_true.mpr ⟨fact,hfact,hans⟩
      rw [hfind] at hl
      rw [if_pos hafter] at ho
      refine ⟨fun _ => by simp [ho,hafter],fun hdrop _ => ?_,?_,fun h => absurd ho h⟩
      · have hkind := hdrop fact (mem_append_right before hfact)
        cases fact with
        | report => cases hkind
        | drop => simp [hl,hafter]
      · cases fact <;> simp [hl]

/-- A drop remembered from just before the copy has it read at once, with no report answering. -/
theorem remembered_drop_opens_nothing :
    ¬AnsweredBy 200000 [0] ∧ ({lastNoWindowUs := some 150000} : GapRecord).remembered 1=none ∧
      (({lastNoWindowUs := some 150000} : GapRecord).around 2 1 200000 0 [.report 0] []).1.opened =
        none := by
  decide +kernel

theorem copy_answered_by_late_report :
    (({} : GapRecord).around 2 1 5 0 [.report 300] [.report 7]).1.opened=none := by
  have h := (copy_answered_in_any_order {} 2 1 5 0 [.report 300] [.report 7] rfl (by decide)).1
    (by decide)
  exact h.trans (if_pos (by decide))

inductive Op where
  | copyDropped (window topLevel : Int) (atUs : Nat) (trace : TraceId)
  | foreground (window : Int) (atUs : Nat) (trace : TraceId) (awaits : Awaits)
  | reported (topLevel : Option Int) (atUs : Nat) (wholeWindow : Bool)
  | noWindow (atUs : Nat)
  | atBound
  | boundPassed
  | close
  | boundReached (bound nowUs : Nat)
  | windowDestroyed (hwnd : Int)

def apply (gap : GapRecord) : Op → GapRecord
  | .copyDropped window topLevel atUs trace => (gap.copyDropped window topLevel atUs trace).1
  | .foreground window atUs trace awaits => gap.foreground window atUs trace awaits
  | .reported topLevel atUs wholeWindow => gap.report topLevel atUs wholeWindow
  | .noWindow atUs => (gap.noWindow atUs).1
  | .atBound => gap.atBound.1
  | .boundPassed => gap.boundPassed
  | .close => gap.close
  | .boundReached bound nowUs => (gap.boundReached bound nowUs).1
  | .windowDestroyed hwnd => gap.windowDestroyed hwnd

def arms (gap : GapRecord) (op : Op) : Option Nat :=
  let number := (gap.apply op).opened.map (fun record => record.boundNumber)
  match op with
  | .copyDropped window topLevel atUs trace =>
      match (gap.copyDropped window topLevel atUs trace).2 with
      | .opened _ => number
      | _ => none
  | .foreground _ atUs _ _ =>
      if gap.opened.any (fun record => atUs≤record.stampUs) then none else number
  | _ => none

def reads (gap : GapRecord) : Op → Option Nat
  | .boundReached bound nowUs =>
      match (gap.boundReached bound nowUs).2 with
      | .ok (some _) => some bound
      | _ => none
  | _ => none

/-- A gap record with what its operations have armed and read, and the bound handed out by
`atBound` and not resolved since. -/
structure History where
  gap : GapRecord := {}
  armed : List Nat := []
  read : List Nat := []
  out : Option Nat := none

namespace History

def outAfter (s : History) : Op → Option Nat
  | .atBound =>
      if s.gap.atBound.2.isSome then s.gap.opened.map (fun record => record.boundNumber) else s.out
  | .boundReached bound _ => if s.out=some bound then none else s.out
  | .boundPassed | .close => none
  | op => if (s.gap.arms op).isSome then none else s.out

def step (s : History) (op : Op) : History :=
  ⟨s.gap.apply op,s.armed++(s.gap.arms op).toList,s.read++(s.gap.reads op).toList,s.outAfter op⟩

def run (ops : List Op) : History := ops.foldl step {}

end History

theorem report_opened (gap : GapRecord) (topLevel : Option Int) (atUs : Nat) (wholeWindow : Bool) :
    (gap.report topLevel atUs wholeWindow).opened =
        gap.opened.filter (fun record => !closes record topLevel atUs wholeWindow) ∧
      (gap.report topLevel atUs wholeWindow).bounds=gap.bounds := by
  cases topLevel <;> cases wholeWindow <;> exact ⟨rfl,rfl⟩

/-- An operation either arms the next bound, for a record no older than the one open, or leaves a
record only as the one that was open. -/
theorem apply_outcome (gap : GapRecord) (op : Op) :
    (∃ record, (gap.apply op).opened=some record ∧ gap.arms op=some (gap.bounds+1) ∧
      record.boundNumber=gap.bounds+1 ∧ (gap.apply op).bounds=gap.bounds+1 ∧
      record.bound=.waiting ∧ gap.reads op=none ∧
      ∀ old, gap.opened=some old → old.stampUs≤record.stampUs ∧
        (old.topLevel=record.topLevel → old.awaits=.focus → record.awaits=.focus)) ∨
    (gap.arms op=none ∧ (gap.apply op).bounds=gap.bounds ∧
      ∀ record, (gap.apply op).opened=some record → ∃ old, gap.opened=some old ∧
        record.boundNumber=old.boundNumber ∧ (old.bound=.passed → record.bound=.passed) ∧
        old.stampUs≤record.stampUs ∧ (old.awaits=.focus → record.awaits=.focus)) := by
  cases op with
  | copyDropped window topLevel atUs trace =>
    simp only [arms,apply,reads]
    unfold copyDropped lookBack restamp openAt close
    grind
  | foreground window atUs trace awaits =>
    simp only [arms,apply,reads]
    unfold foreground openAt
    grind
  | reported | noWindow | atBound | boundPassed | close | boundReached | windowDestroyed =>
    refine .inr ⟨rfl,?_⟩
    simp only [apply]
    grind [report_opened,noWindow,atBound,boundPassed,close,boundReached,windowDestroyed,
      Option.filter_eq_some_iff,Option.map_eq_some_iff]

/-- A read at the bound is of the record open under that number, not passed before and passed by
it. -/
theorem reads_outcome {gap : GapRecord} {op : Op} {bound : Nat} (h : gap.reads op=some bound) :
    ∃ old record, gap.opened=some old ∧ (gap.apply op).opened=some record ∧
      old.boundNumber=bound ∧ old.bound≠.passed ∧ record.bound=.passed := by
  cases op with
  | boundReached number nowUs =>
    simp only [reads,boundReached] at h
    simp only [apply,boundReached]
    grind
  | copyDropped | foreground | reported | noWindow | atBound | boundPassed | close
  | windowDestroyed => cases h

theorem outAfter_outcome {s : History} {op : Op} (hnone : s.gap.arms op=none)
    (h : ∀ old, s.gap.opened=some old → old.bound=.passed ∨ old.bound=.waiting ∨
      s.out=some old.boundNumber) (record : GapOpen)
    (hrecord : (s.gap.apply op).opened=some record) :
    record.bound=.passed ∨ record.bound=.waiting ∨ s.outAfter op=some record.boundNumber := by
  cases op with
  | copyDropped window topLevel atUs trace =>
    simp only [arms,apply] at hnone hrecord
    simp only [History.outAfter,arms,apply,hnone]
    unfold copyDropped lookBack restamp openAt close at hnone hrecord
    grind
  | foreground window atUs trace awaits =>
    simp only [arms,apply] at hnone hrecord
    simp only [History.outAfter,arms,apply,hnone]
    unfold foreground openAt at hnone hrecord
    grind
  | reported | noWindow | atBound | boundPassed | close | boundReached | windowDestroyed =>
    simp only [apply] at hrecord
    grind [History.outAfter,arms,report_opened,noWindow,atBound,boundPassed,close,boundReached,
      windowDestroyed,Option.filter_eq_some_iff,Option.map_eq_some_iff]

/-- What the operations keep of a record's bounds. -/
structure History.Numbered (s : History) : Prop where
  increasing : s.armed.Pairwise (·<·)
  counted : ∀ number∈s.armed, number ≤ s.gap.bounds
  opened : ∀ record, s.gap.opened=some record → record.boundNumber∈s.armed
  once : s.read.Nodup
  readArmed : ∀ number∈s.read, number∈s.armed
  passed : ∀ record, s.gap.opened=some record → record.boundNumber∈s.read → record.bound=.passed
  awaited : ∀ record, s.gap.opened=some record →
    record.bound=.passed ∨ record.bound=.waiting ∨ s.out=some record.boundNumber

theorem History.Numbered.step {s : History} (h : s.Numbered) (op : Op) : (s.step op).Numbered := by
  obtain ⟨record,hopen,harms,hnumber,hbounds,hwaiting,hreads,-⟩ | ⟨harms,hbounds,hsame⟩ :=
    apply_outcome s.gap op
  · have hnew : s.gap.bounds+1∉s.armed := fun hmem => absurd (h.counted _ hmem) (by omega)
    refine ⟨?_,?_,?_,?_,?_,?_,?_⟩ <;>
      simp only [History.step,harms,hreads,hopen,hbounds,Option.toList_some,Option.toList_none,
        append_nil,Option.some.injEq,forall_eq']
    · exact pairwise_append.mpr ⟨h.increasing,by simp,fun number hmem _ hlast => by
        have := h.counted number hmem
        rw [mem_singleton.mp hlast]
        omega⟩
    · simp only [mem_append,mem_singleton]
      rintro number (hmem | rfl)
      · exact Nat.le_succ_of_le (h.counted number hmem)
      · exact Nat.le_refl _
    · simp [hnumber]
    · exact h.once
    · exact fun number hmem => mem_append_left _ (h.readArmed number hmem)
    · exact fun hmem => absurd (hnumber ▸ h.readArmed _ hmem) hnew
    · exact .inr (.inl hwaiting)
  have hread : ∀ number, s.gap.reads op=some number → number∉s.read ∧ number∈s.armed := by
    intro number hnumber
    obtain ⟨old,record,hold,-,rfl,hnot,-⟩ := reads_outcome hnumber
    exact ⟨fun hmem => hnot (h.passed old hold hmem),h.opened old hold⟩
  refine ⟨?_,?_,?_,?_,?_,?_,outAfter_outcome harms h.awaited⟩ <;>
    simp only [History.step,harms,hbounds,Option.toList_none,append_nil]
  · exact h.increasing
  · exact h.counted
  · intro record hrecord
    obtain ⟨old,hold,hnumber,-⟩ := hsame record hrecord
    exact hnumber ▸ h.opened old hold
  · refine nodup_append.mpr ⟨h.once,by cases s.gap.reads op <;> simp,?_⟩
    rintro number hmem _ hlast rfl
    exact (hread number (by simpa using hlast)).1 hmem
  · intro number hmem
    obtain hmem | hmem := mem_append.mp hmem
    · exact h.readArmed number hmem
    · exact (hread number (by simpa using hmem)).2
  · intro record hrecord hmem
    obtain ⟨old,hold,hnumber,hpassed,-⟩ := hsame record hrecord
    obtain hmem | hmem := mem_append.mp hmem
    · exact hpassed (h.passed old hold (hnumber ▸ hmem))
    obtain ⟨_,record',_,hrecord',_,_,hpassed'⟩ := reads_outcome (by simpa using hmem)
    cases hrecord.symm.trans hrecord'
    exact hpassed'

theorem run_numbered (ops : List Op) : (History.run ops).Numbered := by
  have hall : ∀ (ops : List Op) {s : History}, s.Numbered →
      (ops.foldl History.step s).Numbered := by
    intro ops
    induction ops with
    | nil => exact id
    | cons op ops ih => exact fun h => ih (h.step op)
  exact hall ops ⟨.nil,by simp,by simp,.nil,by simp,by simp,by simp⟩

/-- Along every run of operations, and by every next one. -/
theorem run_keeps_bounds (ops : List Op) (op : Op) :
    let s := History.run ops
    (∀ old record, s.gap.opened=some old → (s.gap.apply op).opened=some record →
      old.stampUs≤record.stampUs ∧
        (old.topLevel=record.topLevel → old.awaits=.focus → record.awaits=.focus)) ∧
    s.armed.Pairwise (·<·) ∧ s.read.Nodup ∧ (∀ number∈s.read, number∈s.armed) ∧
    (∀ bound nowUs read, (s.gap.boundReached bound nowUs).2=.ok (some read) →
      ∃ record, s.gap.opened=some record ∧ record.boundNumber=bound ∧ record.dueUs≤nowUs) ∧
    ∀ record, s.gap.opened=some record → record.bound≠.passed →
      s.gap.waitingDueUs=some record.dueUs ∨ s.out=some record.boundNumber := by
  intro s
  have hs : s.Numbered := run_numbered ops
  refine ⟨fun old record hold hrecord => ?_,hs.increasing,hs.once,hs.readArmed,?_,?_⟩
  · obtain ⟨record',hrecord',-,-,-,-,-,hold'⟩ | ⟨-,-,hsame⟩ := apply_outcome s.gap op
    · cases hrecord.symm.trans hrecord'
      exact hold' old hold
    · obtain ⟨old',hold',-,-,hstamp,hawaits⟩ := hsame record hrecord
      cases hold.symm.trans hold'
      exact ⟨hstamp,fun _ => hawaits⟩
  · intro bound nowUs read hread
    unfold boundReached at hread
    grind
  · intro record hrecord hpassed
    obtain hp | hw | hout := hs.awaited record hrecord
    · exact absurd hp hpassed
    · exact .inl (by simp [waitingDueUs,hrecord,hw])
    · exact .inr hout

end GapRecord

end Verbatim.Outpost
