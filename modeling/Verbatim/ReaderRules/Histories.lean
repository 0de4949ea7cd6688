import Verbatim.ReaderRules.InFlight
import Mathlib.Data.List.Induction
import Mathlib.Data.List.Nodup

namespace Verbatim.ReaderRules

open Framework List InFlight Option Nat

variable {T : Type}

inductive Op (T : Type) where
  | start (item : T) (deadline : Nat) (window : RuleWindow) (now : Nat)
  | handOn
  | nextRequest
  | learned (request : Request) (window : Window) (now : Nat)
  | armed (request : Request) (bound : Nat)
  | walkReturned (request : Request) (past : Bool)
  | tick (now : Nat)
  | judged (request : Request) (verdict : Option Reason)
  | published (request : Request) (got : Bool) (thenAbandon : Option Reason) (now : Nat)
  | publishedJudgingNothing (request : Request) (got : Bool) (thenAbandon : Option Reason)
  | endOf (request : Request)
  | succeed

structure Result (T : Type) where
  decision : Decision T := .nothing
  request : Option Request := none
  ended : Option (T × Bool) := none
  generation : Option Nat := none

def Decision.abandoned : Decision T → Option (Abandoned T)
  | .abandon abandoned => some abandoned
  | _ => none

namespace Result

def left (result : Result T) : Option T :=
  (result.decision.abandoned.map (·.item)).or (result.ended.map (·.1))

def charge (result : Result T) : Option Nat :=
  (result.decision.abandoned.map (·.replacement)).or result.generation

end Result

namespace Op

def run (f : InFlight T) : Op T → InFlight T × Result T
  | .start item deadline window now =>
      let (f,request) := f.start item deadline window now
      (f,{request := some request})
  | .handOn =>
      let (f,request) := f.handOn
      (f,{request})
  | .nextRequest =>
      let (f,request) := f.nextRequest
      (f,{request := some request})
  | .learned request window now =>
      let (f,decision) := f.learned request window now
      (f,{decision})
  | .armed request bound => (f.armed request bound,{})
  | .walkReturned request past =>
      let (f,decision) := f.walkReturned request past
      (f,{decision})
  | .tick now =>
      let (f,decision) := f.tick now
      (f,{decision})
  | .judged request verdict =>
      let (f,decision) := f.judged request verdict
      (f,{decision})
  | .published request got thenAbandon now =>
      let (f,decision) := f.published request got thenAbandon now
      (f,{decision})
  | .publishedJudgingNothing request got thenAbandon =>
      let (f,decision) := f.publishedJudgingNothing request got thenAbandon
      (f,{decision})
  | .endOf request =>
      let (f,ended) := f.endOf request
      (f,{ended})
  | .succeed =>
      let (f,generation) := f.succeed
      (f,{generation := some generation})

def names : Op T → Option Request
  | .learned request _ _ | .armed request _ | .walkReturned request _ | .judged request _
  | .published request _ _ _ | .publishedJudgingNothing request _ _ | .endOf request => some request
  | _ => none

def starts : Op T → Option T
  | .start item _ _ _ => some item
  | _ => none

def Proper (f : InFlight T) : Op T → Prop
  | .start _ _ _ _ | .succeed => f.running=none
  | _ => True

instance (f : InFlight T) : (op : Op T) → Decidable (op.Proper f)
  | .start _ _ _ _ | .succeed => inferInstanceAs (Decidable (f.running=none))
  | .handOn | .nextRequest | .learned _ _ _ | .armed _ _ | .walkReturned _ _ | .tick _ | .judged _ _
  | .published _ _ _ _ | .publishedJudgingNothing _ _ _ | .endOf _ => .isTrue trivial

/-- The answer to a publication that found nothing, with the abandonment it carries. -/
def AnswersNothing (reason : Reason) : Op T → Prop
  | .published _ false (some carried) _ | .publishedJudgingNothing _ false (some carried) =>
      carried=reason
  | _ => False

end Op

/-- A record with its past: the requests handed out, the generations that took charge, the items
started and those that left, in order. -/
structure History (T : Type) where
  record : InFlight T := .new
  issued : List Request := []
  charges : List Nat := [0]
  started : List T := []
  left : List T := []

namespace History

def enter (history : History T) (op : Op T) : History T :=
  let (record,result) := op.run history.record
  {record, issued := history.issued++result.request.toList,
    charges := history.charges++result.charge.toList,
    started := history.started++op.starts.toList, left := history.left++result.left.toList}

def after (ops : List (Op T)) : History T := ops.foldl enter {}

end History

/-- Every transition of `ops` is proper where it is made. -/
def ProperFrom : History T → List (Op T) → Prop
  | _,[] => True
  | history,op::ops => op.Proper history.record ∧ ProperFrom (history.enter op) ops

instance decidableProperFrom : (history : History T) → (ops : List (Op T)) →
    Decidable (ProperFrom history ops)
  | _,[] => .isTrue trivial
  | history,op::ops =>
      have := decidableProperFrom (history.enter op) ops
      inferInstanceAs (Decidable (op.Proper history.record ∧ ProperFrom (history.enter op) ops))

namespace InFlight

/-- The record refuses `request`: it accepts no result of it, and nothing that names it changes the
record or has an answer. -/
def Refuses (f : InFlight T) (request : Request) : Prop :=
  f.accepts request=false ∧ ∀ op : Op T, op.names=some request → op.run f=(f,{})

theorem refuses_of_runningOf {f : InFlight T} {request : Request}
    (h : f.runningOf request=none) : f.Refuses request := by
  refine ⟨?_,?_⟩
  · cases hr : f.running with
    | none => simp [accepts,hr]
    | some running =>
      simp only [runningOf,hr,filter_some] at h
      simp only [accepts,hr,any_some]
      split at h
      · cases h
      next hne => simp_all
  · intro op hop
    cases op with
    | learned named _ _ | armed named _ | walkReturned named _ | judged named _
    | published named _ _ _ | publishedJudgingNothing named _ _ | endOf named =>
      cases hop
      simp [Op.run,learned,armed,walkReturned,judged,published,publishedJudgingNothing,
        publication,endOf,h]
    | _ => cases hop

theorem refuses_of_ne {f : InFlight T} {running : Running T} (hr : f.running=some running)
    {request : Request} (hne : request≠running.request) : f.Refuses request := by
  refine refuses_of_runningOf ?_
  simp only [runningOf,hr,filter_some]
  exact if_neg (by simpa using hne.symm)

theorem refuses_of_none {f : InFlight T} (hr : f.running=none) (request : Request) :
    f.Refuses request :=
  refuses_of_runningOf (by simp [runningOf,hr])

variable (f : InFlight T)

variable {decision : Decision T}

variable (request : Request)

/-- The walk of the item running published, or left as it was. -/
inductive Marks (f : InFlight T) : InFlight T → Prop
  | same : Marks f f
  | marks {running : Running T} (hr : f.running=some running) :
      Marks f (f.setRunning {running with walk := .published})

/-- What a transition does that starts, hands on and ends nothing: its walk's, a judgement, or the
abandonment a publication's answer carries. -/
inductive Passes (f : InFlight T) (op : Op T) : InFlight T → Decision T → Prop
  | walks {f' : InFlight T} (hwalks : Walks f f') : Passes f op f' .nothing
  | marks {f' : InFlight T} (hmarks : Marks f f') : Passes f op f' .nothing
  | judges {f₁ f' : InFlight T} {decision : Decision T} (hmarks : Marks f f₁)
      (hjudges : Judges f₁ f' decision) : Passes f op f' decision
  | answers {f₁ : InFlight T} {running : Running T} (hmarks : Marks f f₁)
      (hr : f₁.running=some running) (reason : Reason)
      (hanswer : running.walk=.published ∨ op.AnswersNothing reason) :
      Passes f op {f₁ with generation := f₁.generation+1, running := none}
        (.abandon ⟨f₁.generation,f₁.generation+1,reason,running.item,running.walk=.published⟩)

theorem walkReturned_passes (op : Op T) (request : Request) (past : Bool) :
    Passes f op (f.walkReturned request past).1 (f.walkReturned request past).2 := by
  cases h : f.runningOf request with
  | none =>
    simp only [walkReturned,h]
    exact .walks .same
  | some running =>
    obtain ⟨hr,rfl⟩ := runningOf_eq_some.mp h
    simp only [walkReturned,h]
    split
    next ha =>
      cases past with
      | false => exact .walks (.disarms hr ha)
      | true => exact .judges .same (.publishes hr ha running.moved none)
    · exact .walks .same

theorem mark_marks (got : Bool) : Marks f (f.mark request got) := by
  unfold mark
  split
  · exact .same
  next running h =>
    split
    · exact .marks (runningOf_eq_some.mp h).1
    · exact .same

theorem answer_passes {f : InFlight T} {request : Request} {running : Running T} (op : Op T)
    (h : f.runningOf request=some running) (got : Bool) (reason : Reason)
    (hop : got=false → op.AnswersNothing reason) :
    Passes f op ((f.mark request got).abandon reason).1
      ((f.mark request got).abandon reason).2 := by
  have hr := (runningOf_eq_some.mp h).1
  cases got with
  | true =>
    simp only [mark,h]
    exact .answers (.marks hr) rfl reason (.inl rfl)
  | false =>
    simp only [mark,h,Bool.false_eq_true,if_false,abandon,hr]
    exact .answers .same hr reason (.inr (hop rfl))

theorem published_passes (got : Bool) (thenAbandon : Option Reason) (now : Nat) :
    Passes f (.published request got thenAbandon now) (f.published request got thenAbandon now).1
      (f.published request got thenAbandon now).2 := by
  cases h : f.runningOf request with
  | none =>
    simp only [published,publication,h]
    exact .walks .same
  | some running =>
    rw [published_eq request h]
    cases thenAbandon with
    | none => exact .judges (f.mark_marks request got) (judge_judges _ now)
    | some reason => exact answer_passes _ h got reason (by rintro rfl; rfl)

theorem publishedJudgingNothing_passes (got : Bool) (thenAbandon : Option Reason) :
    Passes f (.publishedJudgingNothing request got thenAbandon)
      (f.publishedJudgingNothing request got thenAbandon).1
      (f.publishedJudgingNothing request got thenAbandon).2 := by
  cases h : f.runningOf request with
  | none =>
    simp only [publishedJudgingNothing,publication,h]
    exact .walks .same
  | some running =>
    rw [publishedJudgingNothing,publication_eq request h]
    cases thenAbandon with
    | none => exact .marks (f.mark_marks request got)
    | some reason => exact answer_passes _ h got reason (by rintro rfl; rfl)

end InFlight

def InFlight.fresh (f : InFlight T) : Request := ⟨f.generation,f.requests+1⟩

inductive Transits (f : InFlight T) (op : Op T) : InFlight T → Result T → Prop
  | starts {item : T} {running : Running T} (hnone : op.Proper f → f.running=none)
      (hstarts : op.starts=some item) (hitem : running.item=item)
      (hrequest : running.request=f.fresh) :
      Transits f op {f with requests := f.requests+1, running := some running}
        {request := some f.fresh}
  | handsOn {running : Running T} (hr : f.running=some running) (hstarts : op.starts=none) :
      Transits f op
        {f with
          requests := f.requests+1
          running := some {running with request := f.fresh}}
        {request := some f.fresh}
  | issues (hstarts : op.starts=none) :
      Transits f op {f with requests := f.requests+1} {request := some f.fresh}
  | ends {running : Running T} (hr : f.running=some running) (hstarts : op.starts=none)
      (published : Bool) :
      Transits f op {f with running := none} {ended := some (running.item,published)}
  | succeeds (hnone : op.Proper f → f.running=none) (hstarts : op.starts=none) :
      Transits f op {f with generation := f.generation+1} {generation := some (f.generation+1)}
  | passes {f' : InFlight T} {decision : Decision T} (hpasses : f.Passes op f' decision)
      (hstarts : op.starts=none) : Transits f op f' {decision}

theorem Op.run_transits (f : InFlight T) (op : Op T) : Transits f op (op.run f).1 (op.run f).2 := by
  cases op with
  | start item deadline window now => exact .starts (fun hnone => hnone) rfl rfl rfl
  | handOn =>
    cases hr : f.running with
    | none =>
      simp only [run,InFlight.handOn,hr]
      exact .passes (.walks .same) rfl
    | some running =>
      simp only [run,InFlight.handOn,hr]
      exact .handsOn hr rfl
  | nextRequest => exact .issues rfl
  | learned request window now =>
    exact .passes (.judges .same (f.learned_judges request window now)) rfl
  | armed request bound => exact .passes (.walks (f.armed_walks request bound)) rfl
  | walkReturned request past => exact .passes (f.walkReturned_passes _ request past) rfl
  | tick now => exact .passes (.judges .same (f.judge_judges now)) rfl
  | judged request verdict => exact .passes (.judges .same (f.judged_judges request verdict)) rfl
  | published request got thenAbandon now =>
    exact .passes (f.published_passes request got thenAbandon now) rfl
  | publishedJudgingNothing request got thenAbandon =>
    exact .passes (f.publishedJudgingNothing_passes request got thenAbandon) rfl
  | endOf request =>
    cases h : f.runningOf request with
    | none =>
      simp only [run,InFlight.endOf,h]
      exact .passes (.walks .same) rfl
    | some running =>
      simp only [run,InFlight.endOf,h]
      exact .ends (InFlight.runningOf_eq_some.mp h).1 rfl _
  | succeed => exact .succeeds (fun hnone => hnone) rfl

namespace InFlight

def carried (f : InFlight T) : Option (Request × T) :=
  f.running.map fun running => (running.request,running.item)

/-- A decision keeps the item running, its request and its generation, or abandons it to the next
generation; it hands out no request. -/
structure Carries (f f' : InFlight T) (decision : Decision T) : Prop where
  requests : f'.requests=f.requests
  stays : decision.abandoned=none → f'.carried=f.carried ∧ f'.generation=f.generation
  leaves : ∀ abandoned, decision.abandoned=some abandoned → ∃ running,
    f.running=some running ∧ abandoned.item=running.item ∧ f'.running=none ∧
      abandoned.replacement=f.generation+1 ∧ f'.generation=f.generation+1

variable {f f' : InFlight T} {running running' : Running T}

theorem carries_setRunning (decision : Decision T)
    (hdecision : decision.abandoned=none) (hr : f.running=some running)
    (hrequest : running'.request=running.request) (hitem : running'.item=running.item) :
    Carries f (f.setRunning running') decision where
  requests := rfl
  stays _ := ⟨by simp [carried,setRunning,hr,hrequest,hitem],rfl⟩
  leaves abandoned habandoned := by
    rw [hdecision] at habandoned
    cases habandoned

theorem carries_self (f : InFlight T) : Carries f f .nothing :=
  ⟨rfl,fun _ => ⟨rfl,rfl⟩,fun _ habandoned => nomatch habandoned⟩

theorem carries_abandon (hr : f.running=some running)
    (reason : Reason) (published : Bool) :
    Carries f {f with generation := f.generation+1, running := none}
      (.abandon ⟨f.generation,f.generation+1,reason,running.item,published⟩) where
  requests := rfl
  stays hnone := nomatch hnone
  leaves abandoned habandoned := by
    cases habandoned
    exact ⟨running,hr,rfl,rfl,rfl,rfl⟩

theorem Judges.carries (hjudges : Judges f f' decision) : Carries f f' decision := by
  cases hjudges with
  | idle hr => exact carries_self f
  | stays hr moved => exact carries_setRunning .nothing rfl hr rfl rfl
  | asks hr moved window | publishes hr ha moved thenAbandon =>
    exact carries_setRunning (.ask _) rfl hr rfl rfl
  | abandons hr ha reason => exact carries_abandon hr reason _

theorem Walks.carries (hwalks : Walks f f') : Carries f f' .nothing := by
  cases hwalks with
  | same => exact carries_self f
  | arms hr hp bound | disarms hr ha => exact carries_setRunning .nothing rfl hr rfl rfl

theorem Marks.carries (hmarks : Marks f f') : Carries f f' .nothing := by
  cases hmarks with
  | same => exact carries_self f
  | marks hr => exact carries_setRunning .nothing rfl hr rfl rfl

theorem Carries.after {f₁ : InFlight T} (hfirst : Carries f f₁ .nothing)
    (hcarries : Carries f₁ f' decision) : Carries f f' decision := by
  obtain ⟨hcarried,hgeneration⟩ := hfirst.stays rfl
  refine ⟨hcarries.requests.trans hfirst.requests,fun hnone => ?_,fun abandoned habandoned => ?_⟩
  · obtain ⟨hcarried',hgeneration'⟩ := hcarries.stays hnone
    exact ⟨hcarried'.trans hcarried,hgeneration'.trans hgeneration⟩
  obtain ⟨running₁,hr₁,hitem,hnone,hreplacement,hgeneration'⟩ :=
    hcarries.leaves abandoned habandoned
  rw [hgeneration] at hreplacement hgeneration'
  cases hr : f.running with
  | none => simp [carried,hr,hr₁] at hcarried
  | some running =>
    simp only [carried,hr,hr₁,map_some,some.injEq,Prod.mk.injEq] at hcarried
    exact ⟨running,rfl,hitem.trans hcarried.2,hnone,hreplacement,hgeneration'⟩

theorem Passes.carries {op : Op T} (hpasses : Passes f op f' decision) : Carries f f' decision := by
  cases hpasses with
  | walks hwalks => exact hwalks.carries
  | marks hmarks => exact hmarks.carries
  | judges hmarks hjudges => exact hmarks.carries.after hjudges.carries
  | answers hmarks hr reason => exact hmarks.carries.after (carries_abandon hr reason _)

end InFlight

structure Sound (history : History T) : Prop where
  numbers : (history.issued.map (·.number)).Pairwise (·<·)
  numbered : ∀ request∈history.issued, request.number≤history.record.requests
  charges : history.charges.Pairwise (·<·)
  charged : ∀ generation∈history.charges, generation≤history.record.generation
  carried : ∀ request item, history.record.carried=some (request,item) →
    request∈history.issued ∧ request.generation=history.record.generation
  left : history.left++(history.record.carried.map (·.2)).toList=history.started

theorem sound_new : Sound ({} : History T) where
  numbers := .nil
  numbered _ hmem := nomatch hmem
  charges := pairwise_singleton _ _
  charged _ hmem := le_of_eq (mem_singleton.mp hmem)
  carried _ _ hcarried := nomatch hcarried
  left := rfl

theorem pairwise_lt_concat {numbers : List Nat} {bound : Nat} (hsorted : numbers.Pairwise (·<·))
    (hbound : ∀ number∈numbers, number≤bound) : (numbers++[bound+1]).Pairwise (·<·) := by
  rw [pairwise_append]
  refine ⟨hsorted,pairwise_singleton _ _,fun number hmem last hlast => ?_⟩
  rw [mem_singleton.mp hlast]
  exact lt_succ_of_le (hbound number hmem)

section Entered

variable {history : History T} (hsound : Sound history)

include hsound

theorem Sound.numbers_fresh :
    ((history.issued++[history.record.fresh]).map (·.number)).Pairwise (·<·) := by
  rw [map_append]
  refine pairwise_lt_concat hsound.numbers fun number hmem => ?_
  obtain ⟨request,hrequest,rfl⟩ := mem_map.mp hmem
  exact hsound.numbered request hrequest

theorem Sound.numbered_fresh (request : Request)
    (hmem : request∈history.issued++[history.record.fresh]) :
    request.number≤history.record.requests+1 := by
  obtain hmem | hmem := mem_append.mp hmem
  · exact le_succ_of_le (hsound.numbered request hmem)
  · rw [mem_singleton.mp hmem]
    exact le_refl _

theorem Sound.charges_next : (history.charges++[history.record.generation+1]).Pairwise (·<·) :=
  pairwise_lt_concat hsound.charges hsound.charged

theorem Sound.charged_next (generation : Nat)
    (hmem : generation∈history.charges++[history.record.generation+1]) :
    generation≤history.record.generation+1 := by
  obtain hmem | hmem := mem_append.mp hmem
  · exact le_succ_of_le (hsound.charged generation hmem)
  · exact le_of_eq (mem_singleton.mp hmem)

theorem Sound.decided {f' : InFlight T} (hcarries : history.record.Carries f' decision) :
    Sound {history with
      record := f'
      charges := history.charges++(decision.abandoned.map (·.replacement)).toList
      left := history.left++(decision.abandoned.map (·.item)).toList} := by
  have hnumbered : ∀ request∈history.issued, request.number≤f'.requests := by
    rw [hcarries.requests]
    exact hsound.numbered
  cases hdecision : decision.abandoned with
  | none =>
    obtain ⟨hcarried,hgeneration⟩ := hcarries.stays hdecision
    simp only [map_none,toList_none,append_nil]
    refine ⟨hsound.numbers,hnumbered,hsound.charges,?_,?_,?_⟩
    · rw [hgeneration]
      exact hsound.charged
    · rw [hcarried,hgeneration]
      exact hsound.carried
    · rw [hcarried]
      exact hsound.left
  | some abandoned =>
    obtain ⟨running,hr,hitem,hnone,hreplacement,hgeneration⟩ := hcarries.leaves _ hdecision
    have hleft := hsound.left
    rw [InFlight.carried,hr] at hleft
    simp only [map_some,toList_some,hreplacement,hitem]
    refine ⟨hsound.numbers,hnumbered,hsound.charges_next,?_,?_,?_⟩
    · rw [hgeneration]
      exact hsound.charged_next
    · intro request item hcarried
      rw [InFlight.carried,hnone] at hcarried
      cases hcarried
    · rw [InFlight.carried,hnone,← hleft]
      simp

theorem Sound.enter (op : Op T) (hproper : op.Proper history.record) :
    Sound (history.enter op) := by
  have htransits := op.run_transits history.record
  have hleft := hsound.left
  rw [History.enter]
  generalize op.run history.record=r at htransits
  obtain ⟨record,result⟩ := r
  cases htransits with
  | @starts item running hnone hstarts hitem hrequest =>
    rw [InFlight.carried,hnone hproper] at hleft
    simp only [Result.charge,Result.left,Decision.abandoned,hstarts,map_none,
      or_none,toList_none,toList_some,append_nil]
    refine ⟨hsound.numbers_fresh,hsound.numbered_fresh,hsound.charges,hsound.charged,?_,?_⟩
    · intro request other hcarried
      obtain ⟨rfl,-⟩ := Prod.mk.inj (some.inj hcarried)
      rw [hrequest]
      exact ⟨mem_concat_self,rfl⟩
    · rw [← hleft]
      simp [InFlight.carried,hitem]
  | @handsOn running hr hstarts =>
    rw [InFlight.carried,hr] at hleft
    simp only [Result.charge,Result.left,Decision.abandoned,hstarts,map_none,
      or_none,toList_none,toList_some,append_nil]
    refine ⟨hsound.numbers_fresh,hsound.numbered_fresh,hsound.charges,hsound.charged,?_,hleft⟩
    intro request other hcarried
    obtain ⟨rfl,-⟩ := Prod.mk.inj (some.inj hcarried)
    exact ⟨mem_concat_self,rfl⟩
  | issues hstarts =>
    simp only [Result.charge,Result.left,Decision.abandoned,hstarts,map_none,
      or_none,toList_none,toList_some,append_nil]
    refine ⟨hsound.numbers_fresh,hsound.numbered_fresh,hsound.charges,hsound.charged,?_,hleft⟩
    intro request other hcarried
    obtain ⟨hmem,hgeneration⟩ := hsound.carried request other hcarried
    exact ⟨mem_append_left _ hmem,hgeneration⟩
  | @ends running hr hstarts published =>
    rw [InFlight.carried,hr] at hleft
    simp only [Result.charge,Result.left,Decision.abandoned,hstarts,map_none,
      map_some,none_or,toList_none,toList_some,append_nil]
    exact ⟨hsound.numbers,hsound.numbered,hsound.charges,hsound.charged,
      (fun _ _ hcarried => nomatch hcarried),by rw [← hleft]; simp [InFlight.carried]⟩
  | succeeds hnone hstarts =>
    simp only [Result.charge,Result.left,Decision.abandoned,hstarts,map_none,
      none_or,toList_none,toList_some,append_nil]
    refine ⟨hsound.numbers,hsound.numbered,hsound.charges_next,hsound.charged_next,?_,hleft⟩
    intro request other hcarried
    rw [InFlight.carried,hnone hproper] at hcarried
    cases hcarried
  | @passes f' decision hpasses hstarts =>
    have hdecided := hsound.decided hpasses.carries
    simpa only [Result.charge,Result.left,hstarts,map_none,or_none,
      toList_none,append_nil] using hdecided

end Entered

theorem sound_after {history : History T} (hsound : Sound history) {ops : List (Op T)}
    (hproper : ProperFrom history ops) : Sound (ops.foldl History.enter history) := by
  induction ops generalizing history with
  | nil => exact hsound
  | cons op ops ih => exact ih (hsound.enter op hproper.1) hproper.2

section Walking

variable {f f' : InFlight T} {op : Op T} {running : Running T}

/-- A decision that neither changes a published walk nor asks for its publication again. -/
def KeepsPublished (f' : InFlight T) (decision : Decision T) : Prop :=
  (∀ running, f'.running=some running → running.walk=.published) ∧
    ∀ request thenAbandon, decision≠.ask (.publish request thenAbandon)

variable (hr : f.running=some running)
include hr

section Published

variable (hp : running.walk=.published)
include hp

theorem InFlight.Judges.keepsPublished (hjudges : f.Judges f' decision) :
    KeepsPublished f' decision := by
  cases hjudges with
  | idle hnone =>
    rw [hr] at hnone
    cases hnone
  | stays hr' moved =>
    obtain rfl := some.inj (hr.symm.trans hr')
    exact ⟨fun _ hrun => some.inj hrun ▸ hp,(fun _ _ heq => nomatch heq)⟩
  | asks hr' moved window =>
    obtain rfl := some.inj (hr.symm.trans hr')
    refine ⟨fun _ hrun => some.inj hrun ▸ hp,fun _ _ heq => ?_⟩
    cases Decision.ask.inj heq
  | publishes hr' ha moved thenAbandon =>
    obtain rfl := some.inj (hr.symm.trans hr')
    exact absurd hp (ne_published_of_isArmed ha)
  | abandons hr' ha reason =>
    exact ⟨(fun _ hrun => nomatch hrun),(fun _ _ heq => nomatch heq)⟩

theorem InFlight.Marks.published (hmarks : f.Marks f') :
    ∃ running', f'.running=some running' ∧ running'.walk=.published := by
  cases hmarks with
  | same => exact ⟨running,hr,hp⟩
  | marks hr' => exact ⟨_,rfl,rfl⟩

theorem InFlight.Passes.keepsPublished (hpasses : f.Passes op f' decision) :
    KeepsPublished f' decision := by
  cases hpasses with
  | walks hwalks =>
    refine ⟨fun running' hrun => ?_,(fun _ _ heq => nomatch heq)⟩
    cases hwalks with
    | same => exact some.inj (hr.symm.trans hrun) ▸ hp
    | arms hr' hne bound =>
      obtain rfl := some.inj (hr.symm.trans hr')
      exact absurd hp hne
    | disarms hr' ha =>
      obtain rfl := some.inj (hr.symm.trans hr')
      exact absurd hp (ne_published_of_isArmed ha)
  | marks hmarks =>
    obtain ⟨running',hr',hp'⟩ := hmarks.published hr hp
    exact ⟨fun _ hrun => some.inj (hr'.symm.trans hrun) ▸ hp',(fun _ _ heq => nomatch heq)⟩
  | judges hmarks hjudges =>
    obtain ⟨running',hr',hp'⟩ := hmarks.published hr hp
    exact hjudges.keepsPublished hr' hp'
  | answers hmarks hr' reason hanswer =>
    exact ⟨(fun _ hrun => nomatch hrun),(fun _ _ heq => nomatch heq)⟩

/-- A published walk stays so until its item leaves, and is not asked to be published again. -/
theorem Op.run_keepsPublished (hproper : op.Proper f) :
    KeepsPublished (op.run f).1 (op.run f).2.decision := by
  have htransits := op.run_transits f
  generalize op.run f=r at htransits
  obtain ⟨f',result⟩ := r
  cases htransits with
  | starts hnone | succeeds hnone => exact absurd (hnone hproper) (by simp [hr])
  | handsOn hr' =>
    obtain rfl := some.inj (hr.symm.trans hr')
    exact ⟨fun _ hrun => some.inj hrun ▸ hp,(fun _ _ heq => nomatch heq)⟩
  | issues =>
    exact ⟨fun _ hrun => some.inj (hr.symm.trans hrun) ▸ hp,(fun _ _ heq => nomatch heq)⟩
  | ends => exact ⟨(fun _ hrun => nomatch hrun),(fun _ _ heq => nomatch heq)⟩
  | passes hpasses => exact hpasses.keepsPublished hr hp

end Published

variable (ha : running.walk.isArmed=true)
include ha

/-- No judgement abandons an item whose walk is armed: only a publication's answer does, having
published the walk or, finding nothing, for the reason the ask carried. -/
theorem Op.run_abandons_armed
    {abandoned : Abandoned T} (habandon : (op.run f).2.decision=.abandon abandoned) :
    abandoned.published=true ∨ op.AnswersNothing abandoned.reason := by
  have htransits := op.run_transits f
  generalize op.run f=r at htransits habandon
  obtain ⟨f',result⟩ := r
  cases htransits with
  | starts | handsOn | issues | ends | succeeds => cases habandon
  | passes hpasses =>
    cases hpasses with
    | walks | marks => cases habandon
    | judges hmarks hjudges =>
      cases hjudges with
      | idle | stays | asks | publishes => cases habandon
      | abandons hr' hunarmed reason =>
        cases habandon
        cases hmarks with
        | same =>
          obtain rfl := some.inj (hr.symm.trans hr')
          rw [ha] at hunarmed
          cases hunarmed
        | marks hr'' =>
          cases hr'
          exact .inl (by simp)
    | answers hmarks hr' reason hanswer =>
      cases habandon
      exact hanswer.imp (fun hp => decide_eq_true hp) fun hnothing => hnothing

/-- An armed walk is asked to be published before the abandonment, which the ask carries. -/
theorem tick_publishes_armed {now : Nat} (hlate : running.deadline≤now) :
    f.tick now=(f.setRunning {running with walk := .unarmed},
      .ask (.publish running.request (some .deadline))) := by
  simp [tick,judge,hr,ha,hlate]

theorem judged_publishes_armed (reason : Reason) :
    f.judged running.request (some reason)=(f.setRunning {running with walk := .unarmed},
      .ask (.publish running.request (some reason))) := by
  have hrun : f.runningOf running.request=some running := runningOf_eq_some.mpr ⟨hr,rfl⟩
  simp [judged,hrun,ha]

end Walking

/-- Every item started leaves once. In every sequence of transitions that starts and succeeds only
with nothing running: the items that left, then the one running, are those started, in order; no
request is handed out twice and generations only grow; while an item runs, only results of its
newest request are applied; a published walk is neither armed nor asked for again; and no judgement
abandons an item whose walk is armed, its publication being asked for first, with the
abandonment. -/
theorem items_leave_once (ops : List (Op T)) (hproper : ProperFrom {} ops) :
    let history := History.after ops
    let record := history.record
    history.left++(record.running.map (·.item)).toList=history.started ∧
    history.issued.Nodup ∧ history.charges.Pairwise (·<·) ∧
    (∀ request, request.generation<record.generation → record.Refuses request) ∧
    ∀ running, record.running=some running →
      running.request∈history.issued ∧
      (∀ request, request≠running.request → record.Refuses request) ∧
      (∀ request, record.handOn.2=some request →
        request∉history.issued ∧ record.handOn.1.Refuses running.request) ∧
      (running.walk=.published → ∀ op : Op T, op.Proper record →
        KeepsPublished (op.run record).1 (op.run record).2.decision) ∧
      (running.walk.isArmed=true →
        (∀ (op : Op T) abandoned, (op.run record).2.decision=.abandon abandoned →
          abandoned.published=true ∨ op.AnswersNothing abandoned.reason) ∧
        (∀ now, running.deadline≤now → record.tick now =
          (record.setRunning {running with walk := .unarmed},
            .ask (.publish running.request (some .deadline)))) ∧
        ∀ reason, record.judged running.request (some reason) =
          (record.setRunning {running with walk := .unarmed},
            .ask (.publish running.request (some reason)))) := by
  intro history record
  have hsound : Sound history := sound_after sound_new hproper
  have hcarried (running : Running T) (hr : record.running=some running) :=
    hsound.carried running.request running.item (by rw [carried]; exact congrArg _ hr)
  refine ⟨?_,?_,hsound.charges,fun request hold => ?_,fun running hr => ⟨(hcarried running hr).1,
    fun request hne => refuses_of_ne hr hne,fun request hgiven => ?_,
    fun hp op hop => Op.run_keepsPublished hr hp hop,fun ha => ⟨fun op abandoned habandon =>
      Op.run_abandons_armed hr ha habandon,fun now hlate => tick_publishes_armed hr ha hlate,
      judged_publishes_armed hr ha⟩⟩⟩
  · have hleft := hsound.left
    rwa [carried,Option.map_map] at hleft
  · exact (List.Pairwise.imp ne_of_lt hsound.numbers).of_map _
      fun request other hne heq => hne (congrArg _ heq)
  · cases hr : record.running with
    | none => exact refuses_of_none hr request
    | some running =>
      refine refuses_of_ne hr fun heq => ?_
      rw [heq,(hcarried running hr).2] at hold
      exact absurd hold (lt_irrefl _)
  · have hfresh : record.handOn =
        (⟨record.generation,record.requests+1,some {running with request := record.fresh}⟩,
          some record.fresh) := by
      simp only [handOn,hr,fresh]
    rw [hfresh] at hgiven ⊢
    cases hgiven
    have hnew : record.fresh∉history.issued := fun hmem =>
      absurd (hsound.numbered _ hmem) (not_succ_le_self _)
    refine ⟨hnew,refuses_of_ne rfl fun heq => hnew ?_⟩
    have heq : running.request=record.fresh := heq
    rw [← heq]
    exact (hcarried running hr).1

/-- A read past its deadline with its walk armed, published and abandoned; then another begun. -/
def lateWalk : List (Op Nat) :=
  [.start 7 50 .never 0,.armed ⟨0,1⟩ 40,.tick 60,.published ⟨0,1⟩ true (some .deadline) 61,
    .start 8 50 .never 70,.handOn]

theorem lateWalk_leaves_once :
    ProperFrom {} lateWalk ∧ (History.after lateWalk).left=[7] ∧
      (History.after lateWalk).left ++
        ((History.after lateWalk).record.running.map (·.item)).toList =
        (History.after lateWalk).started := by
  have hproper : ProperFrom {} lateWalk := by decide +kernel
  exact ⟨hproper,by decide +kernel,(items_leave_once lateWalk hproper).1⟩

/-- A read past its deadline with its walk armed, which is armed again before the publication asked
for is answered. -/
def rearmedWalk : List (Op Nat) := [.start 7 50 .never 0,.armed ⟨0,1⟩ 40,.tick 60,.armed ⟨0,1⟩ 80]

/-- The answer that found nothing to publish abandons the item with its walk armed. -/
theorem rearmedWalk_abandoned_armed :
    ProperFrom {} rearmedWalk ∧
    ((Op.tick 60).run (History.after (rearmedWalk.take 2)).record).2.decision =
      .ask (.publish ⟨0,1⟩ (some .deadline)) ∧
    (History.after rearmedWalk).record.running.map (·.walk)=some (.armed 80) ∧
    ((Op.published ⟨0,1⟩ false (some .deadline) 61).run
      (History.after rearmedWalk).record).2.decision =
      .abandon ⟨0,1,.deadline,7,false⟩ :=
  ⟨by decide +kernel,by decide +kernel,by decide +kernel,by decide +kernel⟩

end Verbatim.ReaderRules
