import Verbatim.Outpost.Arrivals
import Mathlib.Algebra.Order.BigOperators.Group.List
import Mathlib.Algebra.Order.Ring.Nat

namespace Verbatim.Outpost

open ReaderRules Framework List Intake Option

section Keyed

variable {i : Intake} {marks : Marks} {w : Waiting}

/-- The gap's read waits without a key and is planned alone, and what is kept for idle time is a
noted caret. -/
structure Keyed (i : Intake) : Prop where
  waiting : ∀ w∈i.waiting, w.key.isSome=true → w.entry.item.isGapRead=false
  planned : ∀ p∈i.batch, ∀ entry∈p.entries, p=.run entry ∨ entry.item.isGapRead=false
  kept : ∀ entry∈i.idle, entry.item.isNotedCaret=true

theorem not_gapRead_of_classify {item : Item} (h : (classify item).1.isSome=true) :
    item.isGapRead=false := by
  cases item <;> first | rfl | simp [classify] at h

theorem push_keyed (h : Keyed i) (entry : Entry) (marks : Marks) :
    Keyed (i.push entry marks).1 := by
  rcases i.push_cases entry marks with ⟨_,heq⟩ | ⟨_,⟨left,_,_,_,heq⟩ | ⟨_,_,heq⟩⟩
  · exact heq ▸ h
  · rw [heq]
    exact ⟨fun w hw => h.waiting w (mem_of_mem_filter hw),h.planned,h.kept⟩
  · rw [heq]
    refine ⟨fun w hw hkey => ?_,h.planned,h.kept⟩
    rcases mem_requeued hw with hw | rfl
    · exact h.waiting w hw hkey
    · rw [(i.queuedWaiting_formed entry).key] at hkey
      exact not_gapRead_of_classify hkey

theorem filled_keyed (h : Keyed i) (marks : Marks) : Keyed (i.filled marks) := by
  rcases i.filled_cases marks with heq | ⟨_,_,heq⟩ <;> rw [heq]
  · exact h
  refine ⟨fun w hw => h.waiting w (mem_of_mem_drop hw),fun p hp entry hentry => ?_,h.kept⟩
  refine (plan_keyed hp hentry).imp_right ?_
  rintro ⟨w,hw,rfl,hkey⟩
  exact h.waiting w (mem_of_mem_take (mem_taken.mp hw)) hkey

theorem pushAhead_keyed (h : Keyed i) (entries : List Entry) : Keyed (i.pushAhead entries) := by
  unfold pushAhead
  split
  · exact h
  refine ⟨fun w hw hkey => ?_,h.planned,h.kept⟩
  rcases mem_append.mp hw with hw | hw
  · obtain ⟨entry,_,rfl⟩ := mem_map.mp hw
    exact not_gapRead_of_classify hkey
  · exact h.waiting w hw hkey

theorem take_keyed (h : Keyed i) (marks : Marks) : Keyed (i.take marks).1 := by
  have hfilled := filled_keyed h marks
  have htakes := take_takes i marks
  generalize i.filled marks=t at hfilled htakes
  generalize i.take marks=out at htakes ⊢
  obtain ⟨left,handed⟩ := out
  cases htakes with
  | handed hbatch =>
    refine ⟨hfilled.waiting,fun p hp => hfilled.planned p ?_,hfilled.kept⟩
    rw [hbatch]
    exact mem_cons_of_mem _ hp
  | @putBack asker trace observedAtUs front batch noted hbatch hidle =>
    have hleft : Keyed {t with batch, idle := none} := by
      refine ⟨hfilled.waiting,fun p hp => hfilled.planned p ?_,by simp⟩
      rw [hbatch]
      exact mem_cons_of_mem _ hp
    exact pushAhead_keyed hleft _
  | kept hbatch hidle => exact ⟨hfilled.waiting,hfilled.planned,by simp⟩
  | nothing hbatch => exact hfilled

theorem on_keyed (op : Op) (harrives : op.arrives=true) (h : Keyed i) : Keyed (op.on i) := by
  cases op with
  | push entry marks => exact push_keyed h entry marks
  | next marks => cases harrives
  | cancel id =>
    change Keyed (i.cancel id).1
    unfold cancel
    split
    · exact h
    · exact ⟨fun w hw => h.waiting w (mem_of_mem_filter hw),
        fun p hp => h.planned p (mem_of_mem_filter hp),h.kept⟩
  | whenIdle entry =>
    refine ⟨h.waiting,h.planned,fun kept hkept => ?_⟩
    cases hkept
    exact harrives
  | takeIdle => cases harrives
  | setGap gap => exact ⟨h.waiting,h.planned,h.kept⟩
  | close => exact ⟨fun w hw => absurd hw not_mem_nil,fun p hp => absurd hp not_mem_nil,
      fun entry hentry => by cases hentry⟩

theorem Acts.keyed {pushed : List Entry} {i' : Intake} (h : Acts pushed i i') (hi : Keyed i) :
    Keyed i' := h.keeps (fun op _ harrives hi => on_keyed op harrives hi) hi

end Keyed

namespace Reducer

variable {s : Reducer}

theorem dispatch_acts (work : Work) (deadline : Nat) (window : Option Window)
    (running : Option (RequestId × TraceId)) (group : Option GroupTry) (now : Now) :
    Acts [] s.intake (s.dispatch work deadline window running group now).1.intake := by
  have hwatch : Acts [] s.intake (s.replaceWatch work now).1.intake := by
    unfold replaceWatch
    split
    · exact (Speaks.onSome (answerWatch_speaks now) _).acts (s.withWatch _)
    · exact .refl _
  exact hwatch

variable (entry : Entry)

theorem dispatchEntry_acts (handling : Handling) (batch : Nat)
    (group : Option GroupTry) (now : Now) :
    Acts [] s.intake (s.dispatchEntry entry handling batch group now).1.intake :=
  dispatch_acts _ _ _ _ _ now

theorem answerIdle_intake (s : Reducer) : s.answerIdle.1.intake=s.intake := by
  unfold answerIdle
  split <;> rfl

theorem barrier_intake (asker : Asker) (behindNoted : Bool) (entry : Entry)
    (hentry : entry.item=.barrier asker behindNoted) :
    (s.barrier asker behindNoted entry).1.intake =
      (s.intake.putBehind (.run entry)).getD s.intake := by
  obtain ⟨item,trace,observedAtUs,front⟩ := entry
  subst hentry
  unfold barrier
  cases behindNoted with
  | true =>
    cases asker with
    | round round =>
      have hanswered := answerIdle_intake {s with idleQuery := some round}
      cases s.intake.idle <;> exact hanswered
    | settle id => cases s.intake.idle <;> rfl
  | false =>
    cases hidle : s.intake.idle with
    | none =>
      simp only [putBehind,takeIdle,hidle,map_none,getD_none]
      cases asker with
      | round round => exact answerIdle_intake _
      | settle id => rfl
    | some noted =>
      simp only [putBehind,takeIdle,hidle,map_some,getD_some]

variable {i : Intake}

theorem putBehind_of_not_barrier {entry : Entry}
    (h : entry.item.isBarrier=false) : i.putBehind (.run entry)=none := by
  unfold putBehind
  split
  next heq =>
    obtain rfl := Planned.run.inj heq
    cases h
  · rfl

/-- What is done with an entry planned on its own. -/
inductive Runs (s : Reducer) (entry : Entry) (batch : Nat) (now : Now) :
    Reduced → Prop where
  | barrier {asker : Asker} {behindNoted : Bool} (hitem : entry.item=.barrier asker behindNoted) :
      Runs s entry batch now (s.barrier asker behindNoted entry)
  | dispatched (hitem : entry.item.isBarrier=false) :
      Runs s entry batch now (s.dispatchEntry entry .run batch none now)
  | read {bound : Nat} {gap : GapRecord} {found : GapRead} (hitem : entry.item=.gapBound bound)
      (hread : s.intake.gap.boundReached bound now.observedUs=(gap,.ok (some found))) :
      Runs s entry batch now ((s.withGap fun _ => gap).dispatchEntry
        {entry with item := .gapRead found.window, observedAtUs := found.stampUs} .run batch none
        now)
  | passed {bound : Nat} (hitem : entry.item=.gapBound bound) :
      Runs s entry batch now
        (s.withGap fun _ => (s.intake.gap.boundReached bound now.observedUs).1,[])
  | releasing {nodes anchors : List Nat} {acknowledged : Nat}
      (hitem : entry.item=.nodesHeld nodes anchors acknowledged) :
      Runs s entry batch now
        ({s with releasing := true},[.release nodes anchors acknowledged s.live])
  | replied {requestId : RequestId} {query : Query} {outcome : QueryOutcome}
      (hitem : entry.item=.query requestId query) :
      Runs s entry batch now (s.send (replyTo requestId entry.trace outcome))

theorem run_runs (s : Reducer) (entry : Entry) (batch : Nat) (now : Now) :
    Runs s entry batch now (s.run entry batch now) := by
  unfold run
  cases hitem : entry.item with
  | barrier asker behindNoted => exact .barrier hitem
  | nodesHeld nodes anchors acknowledged => exact .releasing hitem
  | gapBound bound =>
    simp only
    split
    next read hreached =>
      exact .read hitem (Prod.ext rfl hreached)
    · exact .passed hitem
  | query requestId query =>
    have hrun : Runs s entry batch now (s.dispatchEntry entry .run batch none now) :=
      .dispatched (by rw [hitem]; rfl)
    cases query with
    | shellItems answerByUs | shellItemPosition answerByUs =>
      simp only
      split
      · exact .replied hitem
      · exact hrun
    | _ => exact hrun
  | _ => exact .dispatched (by rw [hitem]; rfl)

theorem handle_runs (s : Reducer) (entry : Entry) (batch : Nat) (now : Now) :
    Runs s entry batch now (s.handle (.run entry) batch now) := run_runs s entry batch now

theorem run_acts (batch : Nat) (now : Now) :
    Acts [] ((s.intake.putBehind (.run entry)).getD s.intake) (s.run entry batch now).1.intake := by
  have hplain : ∀ t : Reducer, entry.item.isBarrier=false → Acts [] s.intake t.intake →
      Acts [] ((s.intake.putBehind (.run entry)).getD s.intake) t.intake := by
    intro t hnot h
    rwa [putBehind_of_not_barrier hnot]
  have hruns := run_runs s entry batch now
  generalize s.run entry batch now=out at hruns ⊢
  cases hruns with
  | barrier hitem =>
    rw [← barrier_intake _ _ entry hitem]
    exact .refl _
  | dispatched hitem => exact hplain _ hitem (dispatchEntry_acts entry _ _ _ now)
  | @read bound gap found hitem hread =>
    exact hplain _ (by rw [hitem]; rfl) (Acts.trans (.gap gap) (dispatchEntry_acts _ _ _ _ now))
  | passed hitem => exact hplain _ (by rw [hitem]; rfl) (.gap _)
  | releasing hitem => exact hplain _ (by rw [hitem]; rfl) (.refl _)
  | replied hitem => exact hplain _ (by rw [hitem]; rfl) ((send_speaks _).acts s)

theorem handle_acts (planned : Planned) (batch : Nat) (now : Now) :
    Acts [] ((s.intake.putBehind planned).getD s.intake) (s.handle planned batch now).1.intake := by
  cases planned with
  | menu entry => exact dispatchEntry_acts entry _ _ _ now
  | focus entries =>
    cases entries with
    | nil => exact .refl _
    | cons newest older => exact dispatchEntry_acts _ _ _ _ now
  | run entry => exact run_acts entry batch now

def handed (s : Reducer) : Reducer := {s with intake := (s.intake.next s.facts.marks.toMarks).1}

def deferring (out : Reduced) : Reduced :=
  ({out.1 with
    flight := out.1.flight.withItem (fun current => {current with deferred := true})},out.2)

inductive Turned (s : Reducer) (now : Now) : Reduced → Prop where
  | attempted {owed : Owed} (hsettled : s.settled=false) : Turned s now (s.attempt owed now)
  | popped {entry : Entry} {group : Option GroupTry} {after : List (Entry × Option GroupTry)}
      (hsettled : s.settled=false) (hafter : s.after=(entry,group)::after) :
      Turned s now ({s with after}.startEntry entry .run group now)
  | dropped (hsettled : s.settled=false) :
      Turned s now ({s with toDrop := false}.dispatch .drop s.handling none none none now)
  | taken {planned : Planned} {batch : Nat} (hsettled : s.settled=false) (hafter : s.after=[])
      (hnext : (s.intake.next s.facts.marks.toMarks).2=some (planned,batch))
      (howed : s.facts.follow.owed.filter (fun owed => owed.attempting.isNone)=none)
      (hdrop : s.toDrop=false) :
      Turned s now (s.handed.handle planned batch now)
  | watchEnded {watch : Watch} {answer : Answer} (hsettled : s.settled=false)
      (hafter : s.after=[]) (hnext : (s.intake.next s.facts.marks.toMarks).2=none)
      (hreach : s.facts.follow.watch.reach now.wallUs=(watch,.ended answer)) :
      Turned s now ((s.handed.withWatch watch).answerWatch now answer)
  | polled {watch : Watch} (hsettled : s.settled=false) (hafter : s.after=[])
      (hnext : (s.intake.next s.facts.marks.toMarks).2=none)
      (hreach : s.facts.follow.watch.reach now.wallUs=(watch,.read)) :
      Turned s now (deferring
        ((s.handed.withWatch watch).dispatch .pollRead s.handling none none none now))

variable {out : Reduced} {now : Now}

theorem turn_turned (h : s.turn now=some out) : Turned s now out := by
  unfold turn at h
  split at h
  · cases h
  next hsettled =>
    have hsettled : s.settled=false := by simpa using hsettled
    split at h
    · cases h
      exact .attempted hsettled
    next howed =>
      split at h
      next hafter =>
        cases h
        exact .popped hsettled hafter
      next hafter =>
        split at h
        · cases h
          exact .dropped hsettled
        next hdrop =>
          split at h
          next intake planned batch hnext =>
            cases h
            have hintake : intake=(s.intake.next s.facts.marks.toMarks).1 := by
              rw [hnext]
            subst hintake
            exact .taken hsettled hafter (by rw [hnext]) howed (by simpa using hdrop)
          next intake hnext =>
            have hintake : intake=(s.intake.next s.facts.marks.toMarks).1 := by
              rw [hnext]
            subst hintake
            have hnone : (s.intake.next s.facts.marks.toMarks).2=none := by rw [hnext]
            unfold reachWatch at h
            split at h
            · cases h
            next watch answer hreach =>
              cases h
              exact .watchEnded hsettled hafter hnone hreach
            next watch hreach =>
              cases h
              exact .polled hsettled hafter hnone hreach

theorem startEntry_acts (handling : Handling) (group : Option GroupTry)
    (now : Now) : Acts [] s.intake (s.startEntry entry handling group now).1.intake :=
  dispatchEntry_acts entry _ _ group now

theorem turn_acts (h : s.turn now=some out) :
    Acts [] s.intake out.1.intake ∨
      Acts [] ((Op.next s.facts.marks.toMarks).on s.intake) out.1.intake := by
  have htake : ∀ planned batch, (s.intake.next s.facts.marks.toMarks).2=some (planned,batch) →
      (s.intake.take s.facts.marks.toMarks).1 =
        (s.handed.intake.putBehind planned).getD s.handed.intake := by
    intro planned batch hnext
    unfold Intake.take
    have hsplit : s.intake.next s.facts.marks.toMarks=(s.handed.intake,some (planned,batch)) :=
      Prod.ext rfl hnext
    rw [hsplit]
    simp only
    cases s.handed.intake.putBehind planned <;> rfl
  have hnone : (s.intake.next s.facts.marks.toMarks).2=none →
      (s.intake.take s.facts.marks.toMarks).1=s.handed.intake := by
    intro hnext
    unfold Intake.take
    have hsplit : s.intake.next s.facts.marks.toMarks=(s.handed.intake,none) := Prod.ext rfl hnext
    rw [hsplit]
  cases turn_turned h with
  | attempted hsettled => exact .inl (dispatch_acts _ _ _ _ _ now)
  | popped hsettled hafter =>
    exact .inl (startEntry_acts _ _ _ now)
  | dropped hsettled => exact .inl (dispatch_acts _ _ _ _ _ now)
  | taken hsettled hafter hnext =>
    refine .inr ?_
    change Acts [] (s.intake.take s.facts.marks.toMarks).1 _
    rw [htake _ _ hnext]
    exact handle_acts _ _ now
  | @watchEnded watch answer hsettled hafter hnext hreach =>
    refine .inr ?_
    change Acts [] (s.intake.take s.facts.marks.toMarks).1 _
    rw [hnone hnext]
    exact (answerWatch_speaks now answer).acts (s.handed.withWatch watch)
  | @polled watch hsettled hafter hnext hreach =>
    refine .inr ?_
    change Acts [] (s.intake.take s.facts.marks.toMarks).1 _
    rw [hnone hnext]
    exact dispatch_acts .pollRead s.handling none none none now

theorem turn_keyed (h : s.turn now=some out) (hs : Keyed s.intake) : Keyed out.1.intake :=
  (turn_acts h).elim (fun hacts => hacts.keyed hs) fun hacts => hacts.keyed (take_keyed hs _)

theorem Planning.turn_length (runs : List (Nat × List Nat)) (msaaMenu : Option Nat) (p : Planning)
    (item : Waiting × Nat) :
    (p.turn runs msaaMenu item).planned.length+(p.turn runs msaaMenu item).deferred.length ≤
      p.planned.length+p.deferred.length+1 := by
  unfold Planning.turn
  simp only
  split
  · split <;> simp; omega
  split
  · simp
  split
  · simp
    omega
  split
  · split <;> simp; omega
  · simp
    omega

variable (waiting : List Waiting)

theorem plan_length (focused : Option Object) :
    (plan waiting focused).length≤(admitWaiting waiting focused).length := by
  have hfold : ∀ (items : List (Waiting × Nat)) (runs : List (Nat × List Nat))
      (msaaMenu : Option Nat) (p : Planning),
      (items.foldl (Planning.turn runs msaaMenu) p).planned.length +
        (items.foldl (Planning.turn runs msaaMenu) p).deferred.length ≤
        p.planned.length+p.deferred.length+items.length := by
    intro items
    induction items with
    | nil => simp
    | cons item items ih =>
      intro runs msaaMenu p
      have hrest := ih runs msaaMenu (p.turn runs msaaMenu item)
      have hturn := Planning.turn_length runs msaaMenu p item
      simp only [foldl_cons,length_cons]
      omega
  rw [plan_eq,(ended_perm _).length_eq]
  have hlength := hfold (admitWaiting waiting focused).zipIdx
    (triedRuns (admitWaiting waiting focused)) (newestMenu (admitWaiting waiting focused))
    ⟨(admitWaiting waiting focused).map fun item => some item.entry,[],[]⟩
  simpa [planned] using hlength

def load (i : Intake) : Nat :=
  (i.waiting.map fun waiting => turnsOf waiting.entry+1).sum +
    (i.batch.map fun planned => (planned.entries.map turnsOf).sum+1).sum+i.idle.toList.length

theorem turns_eq (s : Reducer) : s.turns=load s.intake+2 := rfl

theorem sum_planned (batch : List Planned) :
    (batch.map fun planned => (planned.entries.map turnsOf).sum+1).sum =
      ((batch.flatMap Planned.entries).map turnsOf).sum+batch.length := by
  induction batch with
  | nil => rfl
  | cons planned batch ih =>
    simp only [map_cons,sum_cons,flatMap_cons,map_append,sum_append,length_cons,ih]
    omega

theorem sum_waiting :
    (waiting.map fun waiting => turnsOf waiting.entry+1).sum =
      ((waiting.map (·.entry)).map turnsOf).sum+waiting.length := by
  induction waiting with
  | nil => rfl
  | cons w waiting ih =>
    simp only [map_cons,sum_cons,length_cons,ih]
    omega

theorem load_plan (focused : Option Object) :
    ((plan waiting focused).map fun planned => (planned.entries.map turnsOf).sum+1).sum ≤
      (waiting.map fun waiting => turnsOf waiting.entry+1).sum := by
  obtain ⟨lost,hperm,_⟩ := plan_perm waiting focused
  have hsum := (hperm.map turnsOf).sum_nat
  have hlength := plan_length waiting focused
  have hsub := admitWaiting_sublist focused waiting
  have hkept := ((hsub.map (·.entry)).map turnsOf).sum_le_sum fun _ _ => Nat.zero_le _
  have hcount := hsub.length_le
  rw [sum_planned,sum_waiting]
  rw [map_append,sum_append] at hsum
  omega

theorem load_filled (i : Intake) (marks : Marks) : load (i.filled marks)≤load i := by
  rcases i.filled_cases marks with heq | ⟨hbatch,_,heq⟩ <;> rw [heq]
  have hplan := load_plan (i.taken marks) marks.focused
  have htaken := ((caretAfterUpdate_perm (i.waiting.take (ready i.waiting))
    marks.focused marks.terminal).map fun waiting => turnsOf waiting.entry+1).sum_nat
  have hsplit : (i.waiting.map fun waiting => turnsOf waiting.entry+1).sum =
      ((i.waiting.take (ready i.waiting)).map fun waiting => turnsOf waiting.entry+1).sum +
      ((i.waiting.drop (ready i.waiting)).map
        fun waiting => turnsOf waiting.entry+1).sum := by
    rw [← sum_append,← map_append,take_append_drop]
  change ((i.taken marks).map fun waiting => turnsOf waiting.entry+1).sum=_ at htaken
  simp only [load,hbatch,map_nil,sum_nil]
  omega

variable {planned : Planned}

theorem load_handOut {batch : Nat} (h : i.handOut.2=some (planned,batch)) :
    load i.handOut.1<load i ∧ (i.handOut.1.idle≠none →
      load i.handOut.1+(planned.entries.map turnsOf).sum<load i) := by
  unfold handOut at h ⊢
  cases hbatch : i.batch with
  | cons first rest =>
    simp only [hbatch] at h ⊢
    cases h
    simp only [load,hbatch,map_cons,sum_cons]
    exact ⟨by omega,fun _ => by omega⟩
  | nil =>
    simp only [hbatch] at h ⊢
    unfold nextIdle at h ⊢
    split at h
    · cases h
    next hopen =>
      rw [if_neg hopen]
      obtain ⟨noted,hidle,_⟩ := map_eq_some_iff.mp h
      simp [load,hbatch,hidle]

theorem load_next {batch : Nat} (h : (i.next marks).2=some (planned,batch)) :
    load (i.next marks).1<load i ∧ ((i.next marks).1.idle≠none →
      load (i.next marks).1+(planned.entries.map turnsOf).sum<load i) := by
  rw [next_eq] at h ⊢
  have hfilled := load_filled i marks
  obtain ⟨hlt,hidle⟩ := load_handOut h
  exact ⟨by omega,fun hne => by have := hidle hne; omega⟩

theorem load_next_le (h : (i.next marks).2=none) : load (i.next marks).1≤load i := by
  have hfilled := load_filled i marks
  rw [next_eq] at h ⊢
  refine le_trans ?_ hfilled
  unfold handOut at h ⊢
  split at h
  · cases h
  unfold nextIdle at h ⊢
  split
  · exact le_rfl
  · simp [load]

theorem load_taken (hi : Keyed i) {batch : Nat} (h : (i.next marks).2=some (planned,batch)) :
    load (((i.next marks).1.putBehind planned).getD (i.next marks).1)<load i := by
  obtain ⟨hlt,hidle⟩ := load_next h
  cases hput : (i.next marks).1.putBehind planned with
  | none => exact hlt
  | some left =>
    unfold putBehind at hput
    split at hput
    next asker trace observedAtUs front =>
      obtain ⟨noted,hnoted,rfl⟩ := map_eq_some_iff.mp hput
      have hnoted : (i.next marks).1.idle=some noted := hnoted
      have hless := hidle (by rw [hnoted]; simp)
      have hkept : noted.item.isNotedCaret=true := by
        refine hi.kept noted ?_
        have hsame : (i.next marks).1.idle=none ∨ (i.next marks).1.idle=i.idle := by
          rw [next_eq,← (@filled_frame i marks).1]
          unfold handOut nextIdle
          split
          · exact .inr rfl
          split
          · exact .inr rfl
          · exact .inl rfl
        rw [hnoted] at hsame
        exact (hsame.resolve_left (by simp)).symm
      have hturns : turnsOf noted=1 := by
        unfold turnsOf
        split
        next hitem =>
          rw [hitem] at hkept
          cases hkept
        · rfl
      have hfour : turnsOf ⟨.barrier asker false,trace,observedAtUs,front⟩=4 := rfl
      have hone : turnsOf ⟨.barrier asker true,trace,observedAtUs,front⟩=1 := rfl
      simp only [Planned.entries,map_cons,map_nil,sum_cons,sum_nil,hfour] at hless
      unfold pushAhead
      split
      · simp only [getD_some,takeIdle,load,toList_none,length_nil] at hless ⊢
        omega
      simp only [getD_some,takeIdle,load,hnoted,plainWaiting,
        map_append,map_cons,map_nil,sum_append,sum_cons,
        sum_nil,toList_none,toList_some,length_nil,
        length_cons,hturns,hone] at hless ⊢
      omega
    · cases hput

def weight (s : Reducer) : Nat := load s.intake+(!s.facts.follow.watch.isNone).toNat

theorem weight_lt_turns (s : Reducer) : s.weight<s.turns := by
  have hwatch := Bool.toNat_le (!s.facts.follow.watch.isNone)
  rw [turns_eq]
  unfold weight
  omega

theorem Speaks.weight {step : Reducer → Reduced} (h : Speaks step) (s : Reducer) :
    (step s).1.weight=s.weight := by
  have hunspoken : ∀ t : Reducer, t.unspoken.weight=t.weight := fun _ => rfl
  rw [← hunspoken,h.same s,hunspoken]

theorem barrier_weight (asker : Asker) (behindNoted : Bool) (entry : Entry)
    (hentry : entry.item=.barrier asker behindNoted) :
    (s.barrier asker behindNoted entry).1.weight =
      load ((s.intake.putBehind (.run entry)).getD s.intake) +
        (!s.facts.follow.watch.isNone).toNat := by
  have hfacts : (s.barrier asker behindNoted entry).1.facts=s.facts := by
    unfold barrier
    split
    · rfl
    cases asker with
    | round round =>
      simp only [answerIdle]
      split <;> rfl
    | settle id => rfl
  rw [weight,hfacts,barrier_intake asker behindNoted entry hentry]

/-- After a turn nothing more is started, or fewer turns are left. -/
theorem turn_weight (hs : Keyed s.intake) {out : Reduced}
    (h : s.turn now=some out) : out.1.settled=true ∨ out.1.weight<s.weight := by
  have hbusy : ∀ t : Reducer, t.busy=true → t.settled=true := fun t ht => by
    simp [settled,ht]
  cases turn_turned h with
  | attempted hsettled | popped hsettled hafter | dropped hsettled => exact .inl (hbusy _ rfl)
  | @taken planned batch hsettled hafter hnext =>
    have hload : load ((s.handed.intake.putBehind planned).getD s.handed.intake) <
        load s.intake := load_taken hs hnext
    have hplain : ∀ t : Reducer, s.handed.intake.putBehind planned=none →
        t.weight=s.handed.weight → t.weight<s.weight := by
      intro t hput ht
      rw [hput] at hload
      rw [ht]
      exact Nat.add_lt_add_right hload _
    cases planned with
    | menu entry => exact .inl (hbusy _ rfl)
    | focus entries =>
      cases entries with
      | nil => exact .inr (hplain _ rfl rfl)
      | cons newest older => exact .inl (hbusy _ rfl)
    | run entry =>
      have hruns := handle_runs s.handed entry batch now
      generalize s.handed.handle (.run entry) batch now=ran at hruns ⊢
      have hnot : entry.item.isBarrier=false → s.handed.intake.putBehind (.run entry)=none :=
        putBehind_of_not_barrier
      cases hruns with
      | @barrier asker behindNoted hitem =>
        refine .inr ?_
        rw [barrier_weight asker behindNoted entry hitem]
        exact Nat.add_lt_add_right hload _
      | dispatched hitem | read hitem hread => exact .inl (hbusy _ rfl)
      | passed hitem => exact .inr (hplain _ (hnot (by rw [hitem]; rfl)) rfl)
      | releasing hitem => exact .inl (by simp [settled])
      | replied hitem =>
        exact .inr (hplain _ (hnot (by rw [hitem]; rfl)) ((send_speaks _).weight _))
  | @watchEnded watch answer hsettled hafter hnext hreach =>
    refine .inr ?_
    rw [(answerWatch_speaks now answer).weight]
    have hload : load s.handed.intake≤load s.intake := load_next_le hnext
    have hwatch : watch.isNone=true ∧ s.facts.follow.watch.isNone=false := by
      revert hreach
      unfold Watch.reach
      split
      next opened bound heq =>
        split
        · intro hreach
          cases hreach
          exact ⟨rfl,by rw [heq]; rfl⟩
        · intro hreach
          cases (Prod.mk.inj hreach).2
      · split <;> intro hreach <;> cases (Prod.mk.inj hreach).2
      · intro hreach
        cases (Prod.mk.inj hreach).2
      · intro hreach
        cases (Prod.mk.inj hreach).2
    have hafterWatch : (s.handed.withWatch watch).weight=load s.handed.intake := by
      simp [weight,withWatch,hwatch.1]
    have hbefore : s.weight=load s.intake+1 := by simp [weight,hwatch.2]
    omega
  | polled hsettled hafter hnext hreach => exact .inl (hbusy _ rfl)

theorem turn_of_settled (h : s.settled=true) (now : Now) : s.turn now=none := by
  unfold turn
  rw [if_pos h]

theorem pumpFor_ends (now : Now) {fuel : Nat} (hs : Keyed s.intake) (hfuel : s.weight<fuel) :
    (pumpFor now fuel s).1.turn now=none := by
  induction fuel generalizing s with
  | zero => omega
  | succ fuel ih =>
    unfold pumpFor
    cases hturn : s.turn now with
    | none => exact hturn
    | some out =>
      have hkeyed := turn_keyed hturn hs
      rcases turn_weight hs hturn with hsettled | hless
      · have hnone := turn_of_settled hsettled now
        have hstops : pumpFor now fuel out.1=(out.1,[]) := by
          cases fuel with
          | zero => rfl
          | succ fuel =>
            unfold pumpFor
            rw [hnone]
        simp only [andThen,hstops]
        exact hnone
      · exact ih hkeyed (by omega)

theorem pump_ends (now : Now) (hs : Keyed s.intake) : (s.pump now).1.turn now=none :=
  pumpFor_ends now hs s.weight_lt_turns

end Reducer

end Verbatim.Outpost
