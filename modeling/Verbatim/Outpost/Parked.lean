import Verbatim.Outpost.Ledger

namespace Verbatim.Outpost

open Framework List Intake Option

def parkedIn (entries : List Entry) : List Nat := entries.flatMap (·.item.parked)

@[simp]
theorem parkedIn_nil : parkedIn []=[] := rfl

@[simp]
theorem parkedIn_append (a b : List Entry) : parkedIn (a++b)=parkedIn a++parkedIn b :=
  flatMap_append

@[simp]
theorem parkedIn_cons (entry : Entry) (rest : List Entry) :
    parkedIn (entry::rest)=entry.item.parked++parkedIn rest := rfl

theorem parkedIn_perm {a b : List Entry} (h : a.Perm b) : (parkedIn a).Perm (parkedIn b) :=
  h.flatMap_right _

theorem parkedIn_none {entries : List Entry} (h : ∀ entry∈entries, entry.item.parked=[]) :
    parkedIn entries=[] :=
  flatMap_eq_nil_iff.mpr h

variable {item : Item}

theorem parked_of_kind (h : ∀ event, item≠.uia event) : item.parked=[] := by
  unfold Item.parked
  split
  next event => exact absurd rfl (h event)
  · rfl

theorem parked_of_marking (h : item.isMarking=true) : item.parked=[] := by
  refine parked_of_kind ?_
  rintro event rfl
  cases h

theorem parked_of_key {window idObject idChild : Int} {raiser : Nat}
    (h : (classify item).1=some (.msaaFocus window idObject idChild raiser)) : item.parked=[] := by
  refine parked_of_kind ?_
  rintro ⟨kind,runtimeId,hwnd,element⟩ rfl
  cases kind <;> cases h

theorem parked_of_menu (h : (classify item).1.any Key.isMenu=true) : item.parked=[] := by
  refine parked_of_kind ?_
  rintro ⟨kind,runtimeId,hwnd,element⟩ rfl
  cases kind <;> cases h

theorem parked_of_category (h : (classify item).2.1≠.uncounted) : item.parked=[] := by
  refine parked_of_kind ?_
  rintro event rfl
  exact h rfl

section Push

variable {s : Intake} {entry : Entry} {marks : Marks}

/-- How a search for one entry ends: nothing found, or the entry out of its place. -/
theorem removeWaiting_cases (waiting : List Waiting) {spot : Nat} (hspot : spot≤waiting.length)
    (isIt : Waiting → Bool) :
    removeWaiting waiting spot isIt=(waiting,none) ∨
    ∃ before w after, waiting=before++w::after ∧ isIt w=true ∧
      removeWaiting waiting spot isIt=(before++after,some (before.length,w)) := by
  have hlength : (waiting.take spot).length=spot := by
    rw [length_take]
    omega
  have hremoval := removeWaiting_removal isIt (waiting.take spot) (waiting.drop spot)
  rw [take_append_drop,hlength] at hremoval
  generalize hresult : removeWaiting waiting spot isIt=result at hremoval ⊢
  cases hremoval with
  | none _ => exact .inl (by rw [take_append_drop])
  | @behind older w newer hsplit hw _ =>
    refine .inr ⟨older,w,newer++waiting.drop spot,?_,hw,by rw [append_assoc]⟩
    have hall := take_append_drop spot waiting
    rw [hsplit,append_assoc] at hall
    exact hall.symm
  | @ahead older w newer hsplit hw _ =>
    refine .inr ⟨waiting.take spot++older,w,newer,?_,hw,?_⟩
    · have hall := take_append_drop spot waiting
      rw [hsplit,← append_assoc] at hall
      exact hall.symm
    · rw [append_assoc,length_append]

theorem parkedIn_split (before : List Waiting) (w : Waiting) (after : List Waiting) :
    (parkedIn ((before++w::after).map (·.entry))).Perm
      (parkedIn ((before++after).map (·.entry))++w.entry.item.parked) := by
  have hperm : ((before++w::after).map (·.entry)).Perm
      (w.entry::(before++after).map (·.entry)) := perm_middle.map _
  exact (parkedIn_perm hperm).trans perm_append_comm

theorem removeClientFocus_keys {waiting : List Waiting} (hformed : ∀ w∈waiting, w.Formed)
    (window : Int) (raiser : Nat) (change : Option WinEventStamp) :
    (parkedIn (waiting.map (·.entry))).Perm
      (parkedIn ((removeClientFocus waiting window raiser change).map (·.entry))) := by
  unfold removeClientFocus
  rcases removeWaiting_cases waiting (Nat.le_refl _) (clientFocus window raiser change) with
    hnone | ⟨before,w,after,rfl,hw,hgone⟩
  · rw [hnone]
  rw [hgone]
  have hkey : w.key=some (.msaaFocus window objidClient 0 raiser) :=
    of_decide_eq_true (Bool.and_elim_left hw)
  have hparked : w.entry.item.parked=[] := parked_of_key ((hformed w (by simp)).key.symm.trans hkey)
  have hperm := parkedIn_split before w after
  rw [hparked,append_nil] at hperm
  exact hperm

theorem replaceKeyed_keys {waiting : List Waiting} (hformed : ∀ w∈waiting, w.Formed)
    (key : Option Key) (item : Item) {place : Option Nat}
    (hplace : ∀ spot, place=some spot → spot≤waiting.length) :
    (parkedIn (waiting.map (·.entry))).Perm
      (parkedIn ((replaceKeyed waiting key item place).1.map (·.entry)) ++
        (replaceKeyed waiting key item place).2.2) := by
  cases key with
  | none => simp [replaceKeyed]
  | some key =>
    have hspot : place.getD waiting.length≤waiting.length := by
      cases place with
      | none => exact Nat.le_refl _
      | some spot => exact hplace spot rfl
    unfold replaceKeyed removeKeyed
    simp only
    rcases removeWaiting_cases waiting hspot (fun w => w.key=some key) with
      hnone | ⟨before,w,after,rfl,-,hgone⟩
    · rw [hnone]
      simp only [append_nil]
      split
      · exact removeClientFocus_keys hformed _ _ _
      · exact List.Perm.refl _
    have hleft (x) (hx : x∈before++after) : x.Formed := by
      refine hformed x ?_
      rcases mem_append.mp hx with hx | hx
      · exact mem_append_left _ hx
      · exact mem_append_right _ (mem_cons_of_mem _ hx)
    rw [hgone]
    refine (parkedIn_split before w after).trans (List.Perm.append_right _ ?_)
    split
    · exact removeClientFocus_keys hleft _ _ _
    · exact List.Perm.refl _

theorem settle_moved (before : List Waiting) (marker : Waiting) (after : List Waiting)
    (new : Waiting) (entered : Option (List Int)) :
    (settle (moveAhead (before++marker::after) (some before.length) entered).1 new
      (moveAhead (before++marker::after) (some before.length) entered).2).Perm
      (new::(before++after)) := by
  cases entered with
  | none =>
    have hset : settle (before++marker::after) new (some before.length)=before++new::after := by
      simp [settle]
    exact hset ▸ perm_middle
  | some old =>
    obtain ⟨segment,rest,rfl,-,hmoved⟩ := oldFocusEventsFirst_eq old before marker after
    simp only [moveAhead,hmoved,settle]
    rw [if_pos (by simp),set_split]
    refine perm_middle.trans (List.Perm.cons new ?_)
    rw [append_assoc]
    refine List.Perm.append_left before ?_
    rw [← append_assoc]
    exact List.Perm.append_right rest (filter_append_perm (ofOldFocus old) segment)

theorem requeued_keys (marks : Marks) (hformed : ∀ w∈s.waiting, w.Formed)
    (hproper : entry.proper=true) {place : Option Nat} (hplace : place=(s.resolves entry).bind
      fun resolves => s.waiting.findIdx? fun w => w.marker=some resolves) :
    (parkedIn (s.waiting.map (·.entry))++(s.asQueued entry).item.parked).Perm
      (parkedIn ((s.requeued entry marks).map (·.entry)) ++
        (replaceKeyed s.waiting (s.queuedWaiting entry).key (s.asQueued entry).item
          place).2.2) := by
  have hspot : ∀ spot, place=some spot → spot ≤ s.waiting.length := by
    rintro spot rfl
    obtain ⟨n,-,hfind⟩ := bind_eq_some_iff.mp hplace.symm
    exact Nat.le_of_lt (findIdx?_eq_some_iff_findIdx_eq.mp hfind).1
  have hkeys := replaceKeyed_keys hformed (s.queuedWaiting entry).key (s.asQueued entry).item hspot
  have hentry : (s.queuedWaiting entry).entry=s.asQueued entry := rfl
  unfold requeued
  rw [← hplace,perm_iff_count]
  intro key
  cases place with
  | none =>
    obtain ⟨left,lost,-,hleft,hnone⟩ := replaceKeyed_back hformed (s.queuedWaiting entry).key
      (s.asQueued entry).item
    have hcount := hkeys.count_eq key
    simp only [hleft,hnone,moveAhead,settle,map_append,map_cons,
      map_nil,parkedIn_append,parkedIn_cons,parkedIn_nil,count_append,append_nil,
      hentry] at hcount ⊢
    omega
  | some spot =>
    obtain ⟨n,hresolves,hfind⟩ := bind_eq_some_iff.mp hplace.symm
    obtain ⟨before,marker,after,hsplit,rfl,hmarker,-⟩ := findIdx?_split hfind
    have hmarker : marker.marker.isSome=true := by simp [of_decide_eq_true hmarker]
    rw [hsplit] at hformed hkeys ⊢
    obtain ⟨before',after',lost,-,hleft,hspot⟩ := replaceKeyed_slot hformed hmarker
      (resolves_some hproper hresolves).1 (s.asQueued entry).item
    rw [hleft] at hkeys
    have hcount := hkeys.count_eq key
    have hgone := (parkedIn_split before' marker after').count_eq key
    have hsettled := (parkedIn_perm ((settle_moved before' marker after' (s.queuedWaiting entry)
      (enteredFrom (s.asQueued entry).item marks)).map (·.entry))).count_eq key
    have hnone : marker.entry.item.parked=[] :=
      parked_of_marking (isMarking_of_marker (hformed marker (by simp)) hmarker)
    simp only [hleft,hspot]
    simp only [hnone,map_cons,parkedIn_cons,count_append,append_nil,
      hentry] at hcount hgone hsettled ⊢
    omega

theorem parked_unmarked (entry : Entry) : (unmarked entry).1.item.parked=entry.item.parked := by
  unfold unmarked
  split
  next hitem => rw [hitem]; rfl
  · rfl

theorem parked_asQueued (s : Intake) (entry : Entry) :
    (s.asQueued entry).item.parked=entry.item.parked := by
  rw [← parked_unmarked entry]
  unfold asQueued
  rcases s.applyGapOutcome_cases (unmarked entry).1 with h | ⟨_,_,_,_,_,hitem,h⟩
  · rw [h]
  · rw [h,hitem]
    rfl

theorem push_keys (marks : Marks) (hs : Sound s) (hproper : entry.proper=true) :
    (parkedIn s.entries++entry.item.parked).Perm
      (parkedIn (s.push entry marks).1.entries++(s.push entry marks).2) := by
  rcases s.push_cases entry marks with ⟨_,heq⟩ | ⟨_,⟨left,hleft,_,hmarking,heq⟩ | ⟨_,_,heq⟩⟩
  · rw [heq,parked_unmarked]
  · rw [heq]
    have hgone : parkedIn ((s.waiting.filter fun w => !left w).map (·.entry))=[] := by
      refine parkedIn_none ?_
      intro gone hgone
      obtain ⟨w,hw,rfl⟩ := mem_map.mp hgone
      obtain ⟨hmem,hout⟩ := mem_filter.mp hw
      have hmarker := hleft w (by simpa using hout)
      exact parked_of_marking (isMarking_of_marker (hs.formed w hmem) hmarker)
    have hperm := parkedIn_perm (filter_perm left s.waiting)
    have hnone : entry.item.parked=[] := by
      rw [← parked_asQueued s]
      exact parked_of_marking hmarking
    rw [parkedIn_append,hgone,append_nil] at hperm
    simp only [entries,parkedIn_append,hnone,append_nil]
    exact hperm.append_right _
  · have hkeys := requeued_keys marks hs.formed hproper rfl
    rw [heq]
    rw [parked_asQueued,perm_iff_count] at hkeys
    rw [perm_iff_count]
    intro key
    have hcount := hkeys key
    simp only [entries,parkedIn_append,count_append] at hcount ⊢
    omega

end Push

section Steps

variable {s : Intake} {marks : Marks}

theorem parked_asPushed (entry : Entry) : entry.asPushed.item.parked=entry.item.parked := by
  unfold Entry.asPushed
  split
  next hitem => rw [hitem]; rfl
  · rfl

theorem parkedIn_asPushed (entries : List Entry) :
    parkedIn (entries.map Entry.asPushed)=parkedIn entries := by
  unfold parkedIn
  rw [flatMap_map]
  exact flatMap_congr fun entry _ => parked_asPushed entry

/-- An operation that drops nothing parked keeps every key. -/
theorem Accounts.keys {op : Op} {s' : Intake} {added handed : List Entry}
    (h : Accounts s op s' added handed)
    (hnone : ∀ reason entry, Drops s op reason entry → entry.item.parked=[]) :
    (parkedIn s.entries++parkedIn added).Perm (parkedIn s'.entries++parkedIn handed) := by
  obtain ⟨lost,hperm,hlost⟩ := h.perm
  have hgone : parkedIn lost=[] := by
    refine parkedIn_none fun entry hentry => ?_
    obtain ⟨reason,hdrops⟩ := hlost entry hentry
    exact hnone reason entry hdrops
  have hkeys := parkedIn_perm hperm
  rw [parkedIn_asPushed,parkedIn_asPushed] at hkeys
  simpa [hgone] using hkeys

theorem parked_of_dropped_next (hs : Sound s) {reason : Reason} {entry : Entry}
    (h : Drops s (.next marks) reason entry) : entry.item.parked=[] := by
  have hwaits (w) (hw : w∈s.taken marks) : w.Formed :=
    hs.formed w (mem_of_mem_take (mem_taken.mp hw))
  cases h with
  | @pastLimits _ older w newer _ htaken hpast =>
    have hformed := hwaits w (by rw [htaken]; simp)
    refine parked_of_category ?_
    rw [← hformed.category]
    intro huncounted
    simp [Outpost.pastLimits,huncounted] at hpast
  | @olderMenu _ older w newer _ hkept hold _ =>
    have hmem : w∈s.taken marks :=
      (admitWaiting_sublist marks.focused (s.taken marks)).subset (by rw [hkept]; simp)
    refine parked_of_menu ?_
    rw [← (hwaits w hmem).key]
    exact hold

theorem parked_of_noted (h : item.isNotedCaret=true) : item.parked=[] := by
  refine parked_of_kind ?_
  rintro event rfl
  cases h

theorem next_keys (hs : Sound s) (marks : Marks) :
    (parkedIn s.entries).Perm (parkedIn (s.next marks).1.entries ++
      parkedIn ((s.next marks).2.elim [] fun next => next.1.entries)) := by
  have hfill := (filled_accounts s marks).keys fun _ _ => parked_of_dropped_next hs
  have hfilled : Sound (s.filled marks) := filled_sound hs
  have hkept := hfilled.kept
  rw [parkedIn_nil,append_nil,append_nil] at hfill
  rw [next_eq]
  refine hfill.trans ?_
  generalize s.filled marks=t at hkept ⊢
  unfold handOut
  cases hbatch : t.batch with
  | cons planned batch =>
    rw [perm_iff_count]
    intro key
    simp only [entries,hbatch,flatMap_cons,parkedIn_append,count_append,elim_some]
    omega
  | nil =>
    unfold nextIdle
    simp only
    split
    · simp
    cases hidle : t.idle with
    | none => simp [entries]
    | some noted =>
      have hnone := parked_of_noted (hkept noted (by rw [hidle]; rfl))
      simp [entries,Planned.entries,hnone]

theorem next_sound (hs : Sound s) (marks : Marks) : Sound (s.next marks).1 := by
  have hfilled : Sound (s.filled marks) := filled_sound hs
  rw [next_eq]
  generalize s.filled marks=t at hfilled
  unfold handOut
  cases hbatch : t.batch with
  | cons planned batch => exact takes_sound hfilled (.handed hbatch)
  | nil =>
    unfold nextIdle
    simp only
    split
    · exact hfilled
    · exact ⟨hfilled.formed,hfilled.marker,hfilled.alone,hfilled.planned,hfilled.closed,by simp⟩

theorem cancel_keys (hs : Sound s) (id : RequestId) :
    (parkedIn s.entries).Perm (parkedIn (s.cancel id).1.entries) := by
  have hkeys := (cancel_accounts hs id).keys (fun reason entry hdrops => by
    cases hdrops with
    | cancelled hitem => rw [hitem]; rfl)
  simpa using hkeys

end Steps

inductive Call where
  | push (entry : Entry) (marks : Marks)
  | next (marks : Marks)
  | cancel (id : RequestId)
  | pushAhead (entries : List Entry)
  | whenIdle (entry : Entry)
  | takeIdle
  | setGap (gap : GapRecord)
  | close

/-- What the intake's callers promise: a marked event is a selection or a notification, only a
noted caret is kept, and only it and an idle query are put ahead. -/
def Call.proper : Call → Bool
  | .push entry _ => entry.proper
  | .pushAhead entries => entries.all fun entry => entry.item.isNotedCaret || entry.item.isBarrier
  | .whenIdle entry => entry.item.isNotedCaret
  | _ => true

/-- The intake with the keys parked for what was pushed, those handed out by `next`, and those it
gave back for a worker to drop. -/
structure Parking where
  intake : Intake
  parked : List Nat
  handed : List Nat
  unparked : List Nat

namespace Parking

def new : Parking := ⟨Intake.new,[],[],[]⟩

def step (p : Parking) : Call → Parking
  | .push entry marks =>
      {p with
        intake := (p.intake.push entry marks).1
        parked := p.parked++entry.item.parked
        unparked := p.unparked++(p.intake.push entry marks).2}
  | .next marks =>
      {p with
        intake := (p.intake.next marks).1
        handed := p.handed++parkedIn ((p.intake.next marks).2.elim [] fun next => next.1.entries)}
  | .cancel id => {p with intake := (p.intake.cancel id).1}
  | .pushAhead entries => {p with intake := p.intake.pushAhead entries}
  | .whenIdle entry => {p with intake := p.intake.whenIdle entry}
  | .takeIdle => {p with intake := p.intake.takeIdle.1}
  | .setGap gap => {p with intake := {p.intake with gap}}
  | .close => {p with intake := p.intake.close.1, unparked := p.unparked++p.intake.close.2}

def run (calls : List Call) : Parking := calls.foldl step new

/-- Every key parked for what was pushed waits, is planned, was handed out or was given back. -/
def Conserves (p : Parking) : Prop :=
  p.parked.Perm (parkedIn p.intake.entries++p.handed++p.unparked)

variable {p : Parking}

theorem not_marking_ahead (h : (item.isNotedCaret || item.isBarrier)=true) :
    item.isMarking=false ∧ item.parked=[] := by
  cases item <;> cases h <;> exact ⟨rfl,rfl⟩

theorem step_sound (hs : Sound p.intake) {call : Call} (hproper : call.proper=true) :
    Sound (p.step call).intake := by
  cases call with
  | push entry marks => exact push_sound hs
  | next marks => exact next_sound hs marks
  | cancel id => exact cancel_sound hs id
  | pushAhead entries =>
    exact pushAhead_sound hs fun entry hentry =>
      (not_marking_ahead (all_eq_true.mp hproper entry hentry)).1
  | whenIdle entry => exact whenIdle_sound hs hproper
  | takeIdle => exact hs.restrict (fun _ => id) (fun _ => id) (by simp [step,takeIdle]) rfl
  | setGap gap => exact hs.restrict (fun _ => id) (fun _ => id) (fun _ => id) rfl
  | close => exact .of_empty rfl rfl rfl

theorem step_conserves (hs : Sound p.intake) (h : p.Conserves) {call : Call}
    (hproper : call.proper=true) : (p.step call).Conserves := by
  unfold Conserves at h ⊢
  rw [perm_iff_count] at h ⊢
  intro key
  have hbefore := h key
  simp only [count_append] at hbefore
  cases call with
  | push entry marks =>
    have hkeys := (push_keys marks hs hproper).count_eq key
    simp only [step,count_append] at hkeys ⊢
    omega
  | next marks =>
    have hkeys := (next_keys hs marks).count_eq key
    simp only [step,count_append] at hkeys ⊢
    omega
  | cancel id =>
    have hkeys := (cancel_keys hs id).count_eq key
    simp only [step,count_append]
    omega
  | pushAhead entries =>
    have hnone : parkedIn entries=[] := parkedIn_none fun entry hentry =>
      (not_marking_ahead (all_eq_true.mp hproper entry hentry)).2
    have hkeys : parkedIn (p.intake.pushAhead entries).entries=parkedIn p.intake.entries := by
      unfold pushAhead
      split
      · rfl
      have hahead : (entries.map plainWaiting).map (·.entry)=entries := by
        simp [plainWaiting,Function.comp_def]
      simp only [Intake.entries,map_append,parkedIn_append]
      rw [hahead,hnone,nil_append]
    simp only [step,count_append,hkeys]
    omega
  | whenIdle entry | takeIdle | setGap gap => exact h key
  | close =>
    have hidle : parkedIn p.intake.idle.toList=[] := parkedIn_none fun entry hentry =>
      parked_of_noted (hs.kept entry (mem_toList.mp hentry))
    have hall : p.intake.close.2=parkedIn p.intake.entries := by
      have hclose : p.intake.close.2=parkedIn (p.intake.entries++p.intake.idle.toList) := rfl
      rw [hclose,parkedIn_append,hidle,append_nil]
    have hempty : p.intake.close.1.entries=[] := rfl
    simp only [step,count_append,hall,hempty,parkedIn_nil,count_nil]
    omega

end Parking

/-- Over every run of the intake, each key parked for a pushed entry is accounted for once: it
waits or is planned, was handed out, or was given back. -/
theorem parked_accounted_once (calls : List Call) (h : ∀ call∈calls, call.proper=true) :
    (Parking.run calls).Conserves := by
  suffices hall : Sound (Parking.run calls).intake ∧ (Parking.run calls).Conserves from hall.2
  refine foldl_invariant (fun p : Parking => Sound p.intake ∧ p.Conserves) ?_ ?_
  · exact ⟨⟨by simp [Parking.new,Intake.new],by simp [Parking.new,Intake.new],
      by simp [Parking.new,Intake.new],by simp [Parking.new,Intake.new],fun _ => ⟨rfl,rfl⟩,
      by simp [Parking.new,Intake.new]⟩,List.Perm.refl _⟩
  · intro call hcall p hp
    exact ⟨Parking.step_sound hp.1 (h call hcall),Parking.step_conserves hp.1 hp.2 (h call hcall)⟩

/-- A change of the active position parked under 7 and 8, replaced by a newer one under 9; a text
change under 5 waits when the outpost closes. -/
def positionRun : List Call :=
  let marks : Marks := ⟨none,.none⟩
  let event (kind : UiaKind) (element : Nat) (trace : TraceId) : Entry :=
    ⟨.uia ⟨kind,[1],0,some element⟩,trace,0,.untested⟩
  [.push (event (.activeTextPosition (some 8)) 7 1) marks,
    .push (event (.activeTextPosition none) 9 2) marks,.next marks,
    .push (event .textChanged 5 3) marks,.close,.push (event .textChanged 6 4) marks]

theorem positionRun_accounted :
    (Parking.run positionRun).parked=[7,8,9,5,6] ∧ (Parking.run positionRun).handed=[9] ∧
    (Parking.run positionRun).unparked=[7,8,5,6] ∧ (Parking.run positionRun).Conserves :=
  ⟨by decide +kernel,by decide +kernel,by decide +kernel,
    parked_accounted_once positionRun (by decide +kernel)⟩

end Verbatim.Outpost
