import Verbatim.Framework.Machine

namespace Verbatim.Listener

open Framework List

/-- A menu end that waits: its stamps, and when its grace is over. -/
structure MenuEnd (T : Type) where
  endedAtUs : Nat
  timing : T
  overAt : Nat

/-- What waits for a menu end's grace: the end, and the idle rounds answered once it is sent. -/
structure GraceState (T : Type) where
  pending : Option (MenuEnd T) := none
  answers : List Nat := []
  closed : Bool := false

inductive GraceInput (T : Type) where
  | ended (endedAtUs : Nat) (timing : T) (grace : Nat)
  | fired
  | idleAnswer (round : Nat)
  | close

inductive GraceEffect (T : Type) where
  | sendEnd (endedAtUs : Nat) (timing : T)
  | sendIdleAnswer (round : Nat)
  | setTimer (delay : Nat)

open GraceInput GraceEffect

variable {T : Type}

def GraceState.step (s : GraceState T) (input : GraceInput T) (now : Nat) :
    GraceState T × List (GraceEffect T) :=
  match input with
  | ended endedAtUs timing grace =>
      ({s with pending := some ⟨endedAtUs,timing,satAdd now grace⟩},[setTimer grace])
  | fired =>
      match s.pending with
      | some e =>
          if now<e.overAt then (s,if s.closed then [] else [setTimer (e.overAt-now)])
          else ({s with pending := none, answers := []},
            sendEnd e.endedAtUs e.timing::s.answers.map sendIdleAnswer)
      | none => ({s with answers := []},s.answers.map sendIdleAnswer)
  | idleAnswer round =>
      if s.pending.isSome then ({s with answers := s.answers++[round]},[])
      else (s,[sendIdleAnswer round])
  | close => ({s with closed := true},[])

def GraceInput.isEnd : GraceInput T → Bool
  | ended _ _ _ => true
  | _ => false

def GraceInput.asked : GraceInput T → List Nat
  | idleAnswer round => [round]
  | _ => []

def GraceEffect.answered : GraceEffect T → List Nat
  | sendIdleAnswer round => [round]
  | _ => []

/-- An input, when it came, and its effects. -/
structure Moment (T : Type) where
  input : GraceInput T
  now : Nat
  effects : List (GraceEffect T)

namespace Moment

variable (m : Moment T)

def answered : List Nat := m.effects.flatMap GraceEffect.answered

def NoEnd : Prop := ∀ endedAtUs timing, sendEnd endedAtUs timing∉m.effects

def NoTimer : Prop := ∀ delay, setTimer delay∉m.effects

end Moment

def graceRun (inputs : List (GraceInput T × Nat)) : GraceState T × List (Moment T) :=
  inputs.foldl (fun (s,log) (input,now) =>
    ((s.step input now).1,log++[⟨input,now,(s.step input now).2⟩])) ({},[])

/-- One of the log is `p`, and all after it are `q`. -/
def Since {α : Type} (p q : α → Prop) (log : List α) : Prop :=
  ∃ before m later, log=before++m::later ∧ p m ∧ ∀ n∈later, q n

/-- An end pending is the newest and not sent, and unless the timer is closed it was last set to go
off when the end's grace is over, or later. -/
structure Awaited (s : GraceState T) (log : List (Moment T)) (e : MenuEnd T) : Prop where
  newest : Since
    (fun m => ∃ grace, m.input=ended e.endedAtUs e.timing grace ∧ e.overAt=satAdd m.now grace)
    (fun m => m.input.isEnd=false ∧ m.NoEnd) log
  timer : s.closed=false → Since
    (fun m => ∃ delay, setTimer delay∈m.effects ∧ e.overAt≤ m.now+delay) Moment.NoTimer log

/-- The state beside the log. -/
structure Graceful (s : GraceState T) (log : List (Moment T)) : Prop where
  rounds : log.flatMap Moment.answered++s.answers=log.flatMap fun m => m.input.asked
  idle : s.pending=none → s.answers=[] ∧ ¬ Since (fun m => m.input.isEnd) Moment.NoEnd log
  awaited : ∀ e, s.pending=some e → Awaited s log e
  closed : (∃ m∈log, m.input=close) → s.closed=true

/-- What the inputs to come do. -/
structure Promised (s : GraceState T) (log : List (Moment T)) (input : GraceInput T) (now : Nat) :
    Prop where
  /-- A round is answered when no end is unsent, or behind the end sent. -/
  behind : ∀ round, sendIdleAnswer round∈(s.step input now).2 →
    ¬ Since (fun m => m.input.isEnd) Moment.NoEnd log ∨
      ∃ endedAtUs timing, (s.step input now).2.head?=some (sendEnd endedAtUs timing)
  /-- The end sent is the newest, its grace over, and was not sent before. -/
  sent : ∀ endedAtUs timing, sendEnd endedAtUs timing∈(s.step input now).2 →
    (∀ other how, sendEnd other how∉(s.step input now).2.tail) ∧
    Since (fun m => ∃ grace, m.input=ended endedAtUs timing grace ∧ satAdd m.now grace≤now)
      (fun m => m.input.isEnd=false ∧ m.NoEnd) log
  /-- Callbacks before the grace is over change nothing and set the timer again, and the first that
  is not sends the end and the rounds. -/
  sends : ∀ e, s.pending=some e → s.closed=false → ∀ early : List Nat,
    (∀ now∈early, now<e.overAt) → ∀ now,
      ((early.foldl (fun s now => (s.step fired now).1) s).step fired now).2 =
        if now<e.overAt then [setTimer (e.overAt-now)]
        else sendEnd e.endedAtUs e.timing::s.answers.map sendIdleAnswer
  closed : s.closed=true → ∀ delay, setTimer delay∈(s.step input now).2 → input.isEnd=true

theorem since_concat {α : Type} {p q : α → Prop} {log : List α} {m : α} :
    Since p q (log++[m]) ↔ p m ∨ Since p q log ∧ q m := by
  constructor
  · rintro ⟨before,e,later,heq,hp,hq⟩
    rcases eq_nil_or_concat later with rfl | ⟨later,n,rfl⟩
    · obtain ⟨rfl,rfl⟩ := append_singleton_inj.mp heq
      exact .inl hp
    · rw [concat_eq_append,← cons_append,← append_assoc] at heq
      obtain ⟨rfl,rfl⟩ := append_singleton_inj.mp heq
      rw [concat_eq_append,forall_mem_append,forall_mem_singleton] at hq
      exact .inr ⟨⟨before,e,later,rfl,hp,hq.1⟩,hq.2⟩
  · rintro (hp | ⟨⟨before,e,later,rfl,hp,hq⟩,hm⟩)
    · exact ⟨log,m,[],rfl,hp,forall_mem_nil _⟩
    · exact ⟨before,e,later++[m],by simp,hp,forall_mem_append.2 ⟨hq,forall_mem_singleton.2 hm⟩⟩

variable {s : GraceState T} {log : List (Moment T)}

theorem step_rounds (hidle : s.pending=none → s.answers=[]) (input : GraceInput T) (now : Nat) :
    (s.step input now).2.flatMap GraceEffect.answered++(s.step input now).1.answers =
      s.answers++input.asked := by
  fun_cases s.step input now with
  | _ => simp_all [GraceEffect.answered,asked,flatMap_map]

theorem Graceful.step (h : Graceful s log) (input : GraceInput T) (now : Nat) :
    Graceful (s.step input now).1 (log++[⟨input,now,(s.step input now).2⟩]) := by
  refine ⟨?_,?_,?_,?_⟩
  · have hrounds := step_rounds (fun hnone => (h.idle hnone).1) input now
    simp [Moment.answered,hrounds,← h.rounds]
  · fun_cases s.step input now with
    | case1 | case2 | case5 => simp_all [Option.isSome_iff_ne_none]
    | case3 => simp [since_concat,isEnd,Moment.NoEnd]
    | case4 | case6 | case7 =>
      intro hnone
      obtain ⟨hanswers,hsince⟩ := h.idle hnone
      simp_all [since_concat,isEnd]
  · fun_cases s.step input now with
    | case1 endedAtUs timing grace =>
      rintro _ ⟨⟩
      refine ⟨since_concat.mpr (.inl ⟨grace,rfl,rfl⟩),fun _ => since_concat.mpr (.inl ⟨grace,?_⟩)⟩
      unfold satAdd
      exact ⟨mem_singleton_self _,Nat.min_le_left _ _⟩
    | case2 e hpending hlt =>
      intro _ hsame
      obtain ⟨hnewest,_⟩ := h.awaited _ hsame
      cases hpending.symm.trans hsame
      refine ⟨since_concat.mpr (.inr ⟨hnewest,rfl,by simp [Moment.NoEnd]⟩),fun hopen => ?_⟩
      have hopen : s.closed=false := hopen
      exact since_concat.mpr (.inl ⟨e.overAt-now,by simp [hopen],by simp only; omega⟩)
    | case3 | case4 | case6 => simp_all
    | case5 =>
      intro e hsame
      obtain ⟨hnewest,htimer⟩ := h.awaited e hsame
      exact ⟨since_concat.mpr (.inr ⟨hnewest,rfl,by simp [Moment.NoEnd]⟩),
        fun hopen => since_concat.mpr (.inr ⟨htimer hopen,by simp [Moment.NoTimer]⟩)⟩
    | case7 =>
      intro e hsame
      have hnewest := (h.awaited e hsame).newest
      exact ⟨since_concat.mpr (.inr ⟨hnewest,rfl,by simp [Moment.NoEnd]⟩),
        fun hopen => nomatch hopen⟩
  · fun_cases s.step input now with
    | case7 => exact fun _ => rfl
    | _ => simpa using h.closed

theorem graceRun_graceful (inputs : List (GraceInput T × Nat)) :
    Graceful (graceRun inputs).1 (graceRun inputs).2 := by
  induction inputs using reverseRecOn with
  | nil => exact ⟨rfl,fun _ => ⟨rfl,by simp [Since,graceRun]⟩,by simp [graceRun],by simp [graceRun]⟩
  | append_singleton inputs input ih =>
    rw [graceRun,foldl_append]
    exact ih.step input.1 input.2

/-- Rounds are answered in order, behind the ends they wait for; only the newest end is sent, once,
its grace over; an end pending is sent by the first callback not before that, and the timer is last
set for then; once closed, only a menu end sets it. -/
theorem grace_kept (inputs : List (GraceInput T × Nat)) (input : GraceInput T) (now : Nat) :
    Graceful (graceRun inputs).1 (graceRun inputs).2 ∧
      Promised (graceRun inputs).1 (graceRun inputs).2 input now := by
  have h := graceRun_graceful inputs
  generalize (graceRun inputs).1=s at h ⊢
  refine ⟨h,?_,?_,?_,?_⟩
  · intro round hround
    cases hpending : s.pending with
    | none => exact .inl (h.idle hpending).2
    | some e =>
      refine .inr ?_
      revert hround
      fun_cases s.step input now <;> simp_all
  · intro endedAtUs timing
    fun_cases s.step input now with
    | case3 e hpending hle =>
      intro hsend
      obtain ⟨rfl,rfl⟩ : endedAtUs=e.endedAtUs ∧ timing=e.timing := by simpa using hsend
      obtain ⟨before,m,later,hlog,⟨grace,hinput,hover⟩,hlater⟩ := (h.awaited e hpending).newest
      exact ⟨by simp,before,m,later,hlog,⟨grace,hinput,hover ▸ not_lt.mp hle⟩,hlater⟩
    | _ => simp
  · intro e hpending hopen early hearly now
    have hsame : early.foldl (fun s now => (s.step fired now).1) s=s := by
      refine foldl_fixed fun now hnow => ?_
      rw [GraceState.step,hpending]
      simp [hearly now hnow]
    rw [hsame,GraceState.step,hpending]
    simp only [hopen]
    split <;> rfl
  · intro hclosed delay
    fun_cases s.step input now <;> simp_all [isEnd]

/-- A menu end sets the timer when it is closed, and a grace that would pass the clock's end is over
at it. -/
theorem closed_sets_timer :
    ((graceRun [(close,0)]).1.step (ended 0 () 1) 0).2=[setTimer 1] ∧
      ((graceRun [(ended 0 () 1,u64Max)]).1.step fired u64Max).2=[sendEnd 0 ()] := by
  refine ⟨rfl,?_⟩
  simp [graceRun,GraceState.step,satAdd]

end Verbatim.Listener
