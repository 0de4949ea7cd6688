import Verbatim.Outpost.Planning
import Verbatim.Outpost.Queueing

namespace Verbatim.Outpost

open Framework List Intake

/-- An entry as it was pushed: an idle query the reducer put behind the noted caret is still the
one that arrived. -/
def Entry.asPushed (entry : Entry) : Entry :=
  match entry.item with
  | .barrier asker _ => {entry with item := .barrier asker false}
  | _ => entry

def Entry.stamp (entry : Entry) : Option WinEventStamp :=
  match entry.item with
  | .fact _ stamp => stamp
  | _ => none

namespace Item

def isNotedCaret : Item → Bool
  | .notedCaret _ => true
  | _ => false

/-- Whether the item marks the place of a UIA focus, or resolves markers without a read. -/
def isMarking : Item → Bool
  | .fact (.uiaFocusMarker _) _ | .fact (.uiaFocusDropped _ _ _) _
  | .fact .uiaFocusReadsEnded _ => true
  | _ => false

def isUnlimited : Item → Bool
  | .query _ _ | .barrier _ _ | .nodesHeld _ _ _ | .uia _ => true
  | .fact (.uiaFocusRead _ _ _) _ | .fact (.uiaSelection _ _ _) _
  | .fact (.uiaNotification _ _ _) _ => true
  | _ => false

end Item

/-- What is done to the intake: an entry arrives, the reducer takes the next, a query is withdrawn,
a noted caret is kept or taken back, the reducer changes the gap record, the outpost closes. -/
inductive Op where
  | push (entry : Entry) (marks : Marks)
  | next (marks : Marks)
  | cancel (id : RequestId)
  | whenIdle (entry : Entry)
  | takeIdle
  | setGap (gap : GapRecord)
  | close

namespace Intake

/-- The idle query a reducer that took `planned` puts back, directly behind the noted caret kept. -/
def putBehind (s : Intake) : Planned → Option Intake
  | .run ⟨.barrier asker false,trace,observedAtUs,front⟩ =>
      s.takeIdle.2.map fun noted =>
        s.takeIdle.1.pushAhead [noted,⟨.barrier asker true,trace,observedAtUs,front⟩]
  | _ => none

/-- The intake once the reducer has taken what is next, and what it was handed and did not put
back. -/
def take (s : Intake) (marks : Marks) : Intake × List Entry :=
  match s.next marks with
  | (s,none) => (s,[])
  | (s,some (planned,_)) => (s.putBehind planned).elim (s,planned.entries) (·,[])

end Intake

/-- The intake with what went into it and what came out: the entries pushed, as they wait, the
noted carets that were kept and left, and the entries handed out. -/
structure Ledger where
  intake : Intake
  pushed : List Entry
  unkept : List Entry
  handed : List Entry

namespace Ledger

def new : Ledger := ⟨Intake.new,[],[],[]⟩

def step (l : Ledger) : Op → Ledger
  | .push entry marks =>
      {l with
        intake := (l.intake.push entry marks).1
        pushed := l.pushed++[l.intake.asQueued entry]}
  | .next marks =>
      let (intake,handed) := l.intake.take marks
      {l with
        intake
        unkept := l.unkept++if intake.idle=none then l.intake.idle.toList else []
        handed := l.handed++handed}
  | .cancel id => {l with intake := (l.intake.cancel id).1}
  | .whenIdle entry => {l with intake := l.intake.whenIdle entry}
  | .takeIdle => {l with intake := l.intake.takeIdle.1}
  | .setGap gap => {l with intake := {l.intake with gap}}
  | .close => {l with intake := l.intake.close.1}

def run (ops : List Op) : Ledger := ops.foldl step new

end Ledger

inductive Reason where
  | replaced
  | foregroundChange
  | pastLimits
  | olderMenu
  | cancelled
  | closed
  | marking
  deriving DecidableEq

/-- What a batch planned now would take, in the order it waits. -/
def Intake.taken (s : Intake) (marks : Marks) : List Waiting :=
  caretAfterUpdate (s.waiting.take (ready s.waiting)) marks.focused marks.terminal

/-- Whether doing `op` to the intake drops an entry, and why. -/
inductive Drops (s : Intake) : Op → Reason → Entry → Prop where
  /-- A newer entry of its key arrives, with no idle query between the two. -/
  | replaced {entry marks before slot after w key}
      (hspot : Spot s.waiting (s.resolves entry) before slot after)
      (hstretch : w∈stretch before after)
      (hold : (classify w.entry.item).1=some key)
      (hnew : (classify (s.asQueued entry).item).1=some key) :
      Drops s (.push entry marks) .replaced w.entry
  /-- A foreground change of its window arrives from its thread, and it was not raised after. -/
  | foregroundChange {entry marks before slot after w window raiser}
      (hspot : Spot s.waiting (s.resolves entry) before slot after)
      (hstretch : w∈stretch before after)
      (hold : (classify w.entry.item).1=some (.msaaFocus window objidClient 0 raiser))
      (hnew : (classify (s.asQueued entry).item).1=some (.foreground window raiser))
      (hraised : ∀ focus change, w.entry.stamp=some focus →
        (s.asQueued entry).stamp=some change → focus.raisedAfter change.time=false) :
      Drops s (.push entry marks) .foregroundChange w.entry
  /-- Enough newer entries of its kind are in its batch. -/
  | pastLimits {marks older w newer} (hbatch : s.batch=[])
      (htaken : s.taken marks=older++w::newer)
      (hpast : Outpost.pastLimits marks.focused newer w=true) :
      Drops s (.next marks) .pastLimits w.entry
  /-- A newer menu opening is in its batch. -/
  | olderMenu {marks older w newer} (hbatch : s.batch=[])
      (hkept : admitWaiting (s.taken marks) marks.focused=older++w::newer)
      (hold : w.key.any Key.isMenu=true) (hnew : ∃ x∈newer, x.key.any Key.isMenu=true) :
      Drops s (.next marks) .olderMenu w.entry
  | cancelled {id query entry} (hitem : entry.item=.query id query) :
      Drops s (.cancel id) .cancelled entry
  | closing {entry} (hentry : entry∈s.entries) : Drops s .close .closed entry
  | closed {entry marks} (hclosed : s.closed=true) :
      Drops s (.push entry marks) .closed (s.asQueued entry)
  /-- It marked the place of a read, or resolved markers without one. -/
  | marking {entry marks gone} (hitem : gone.item.isMarking=true) :
      Drops s (.push entry marks) .marking gone

/-- Whether the intake dropped an entry during a run, and why. -/
def Dropped (ops : List Op) (reason : Reason) (entry : Entry) : Prop :=
  ∃ before op after, ops=before++op::after ∧ Drops (Ledger.run before).intake op reason entry

section Tally

def tally (entry : Entry) (entries : List Entry) : Nat := (entries.map Entry.asPushed).count entry

variable (entry : Entry)

@[simp]
theorem tally_nil : tally entry []=0 := rfl

@[simp]
theorem tally_append (xs ys : List Entry) : tally entry (xs++ys)=tally entry xs+tally entry ys := by
  simp [tally]

theorem tally_perm {xs ys : List Entry} (h : xs.Perm ys) : tally entry xs=tally entry ys :=
  (h.map _).count_eq entry

@[simp]
theorem tally_cons (x : Entry) (xs : List Entry) :
    tally entry (x::xs)=tally entry xs+if x.asPushed == entry then 1 else 0 :=
  count_cons

end Tally

structure Sound (s : Intake) : Prop where
  formed : ∀ w∈s.waiting, w.Formed
  marker : ∀ w∈s.waiting, w.entry.item.isMarking=true → w.marker.isSome=true
  alone : ∀ p∈s.batch, ∀ entry∈p.entries, p=.run entry ∨ (classify entry.item).1.isSome=true
  planned : ∀ p∈s.batch, ∀ entry∈p.entries, entry.item.isMarking=false
  closed : s.closed=true → s.waiting=[] ∧ s.batch=[]
  kept : ∀ entry∈s.idle, entry.item.isNotedCaret=true

theorem Sound.restrict {s s' : Intake} (hs : Sound s) (hwaiting : ∀ w∈s'.waiting, w∈s.waiting)
    (hbatch : ∀ p∈s'.batch, p∈s.batch) (hidle : ∀ entry∈s'.idle, entry∈s.idle)
    (hclosed : s'.closed=s.closed) : Sound s' where
  formed w hw := hs.formed w (hwaiting w hw)
  marker w hw := hs.marker w (hwaiting w hw)
  alone p hp := hs.alone p (hbatch p hp)
  planned p hp := hs.planned p (hbatch p hp)
  closed h := by
    rw [hclosed] at h
    rw [(hs.closed h).1] at hwaiting
    rw [(hs.closed h).2] at hbatch
    exact ⟨eq_nil_iff_forall_not_mem.mpr fun w hw => not_mem_nil (hwaiting w hw),
      eq_nil_iff_forall_not_mem.mpr fun p hp => not_mem_nil (hbatch p hp)⟩
  kept entry hentry := hs.kept entry (hidle entry hentry)

theorem Sound.of_empty {s : Intake} (hwaiting : s.waiting=[]) (hbatch : s.batch=[])
    (hidle : s.idle=none) : Sound s := by
  refine ⟨?_,?_,?_,?_,fun _ => ⟨hwaiting,hbatch⟩,?_⟩ <;> simp [hwaiting,hbatch,hidle]

/-- What went in, with what was there, is there still, was handed out or was dropped. -/
def Accounts (s : Intake) (op : Op) (s' : Intake) (added handed : List Entry) : Prop :=
  ∃ lost, (∀ entry, tally entry s.entries+tally entry added =
      tally entry s'.entries+tally entry handed+tally entry lost) ∧
    ∀ entry∈lost, ∃ reason, Drops s op reason entry

theorem Accounts.perm {s s' : Intake} {op : Op} {added handed : List Entry}
    (h : Accounts s op s' added handed) :
    ∃ lost, ((s.entries++added).map Entry.asPushed).Perm
        ((s'.entries++handed++lost).map Entry.asPushed) ∧
      ∀ entry∈lost, ∃ reason, Drops s op reason entry := by
  obtain ⟨lost,htally,hlost⟩ := h
  refine ⟨lost,perm_iff_count.mpr fun entry => ?_,hlost⟩
  have hcount := htally entry
  simp only [tally] at hcount
  simp only [map_append,count_append]
  omega

section Push

theorem edited_perm {before after before' after' lost : List Waiting}
    (h : Edited before after before' after' lost) :
    (before++after).Perm (before'++after'++lost) := by
  induction h with
  | refl => simp
  | @behind older w newer ahead lost h hw hnone ih =>
    refine ih.trans ?_
    rw [append_assoc,append_assoc,append_assoc,append_assoc]
    refine List.Perm.append_left older ?_
    rw [cons_append,← append_assoc,← append_assoc]
    exact perm_middle.symm
  | @ahead behind older w newer lost h hw hnone ih =>
    refine ih.trans ?_
    rw [append_assoc,append_assoc,append_assoc,append_assoc]
    refine List.Perm.append_left behind (List.Perm.append_left older ?_)
    exact perm_middle.symm
  | @move behind segment rest lost first h hnone ih =>
    refine ih.trans (List.Perm.append_right lost ?_)
    rw [append_assoc]
    refine List.Perm.append_left behind ?_
    rw [← append_assoc]
    exact List.Perm.append_right rest (filter_append_perm first segment).symm

variable {s : Intake} {entry : Entry} {marks : Marks}

theorem isMarking_of_marker {w : Waiting} (hformed : w.Formed) (hmarker : w.marker.isSome=true) :
    w.entry.item.isMarking=true := by
  rw [hformed.marker] at hmarker
  unfold markerOf at hmarker
  split at hmarker
  next hitem =>
    rw [hitem]
    rfl
  · cases hmarker

theorem not_raisedAfter {focus change : Option WinEventStamp}
    (h : focusRaisedFirst focus change true=true) {f c : WinEventStamp} (hf : focus=some f)
    (hc : change=some c) : f.raisedAfter c.time=false := by
  subst hf hc
  unfold focusRaisedFirst at h
  simp only at h
  split at h
  · exact tickIsAfter_asymm h
  next heq =>
    simp [WinEventStamp.raisedAfter,tickIsAfter,heq]

/-- What an entry that arrives displaces is dropped for a newer one of its key or for its window's
foreground change. -/
theorem drops_of_displaces {before slot after : List Waiting} {w : Waiting} (hformed : w.Formed)
    (hspot : Spot s.waiting (s.resolves entry) before slot after)
    (hstretch : w∈stretch before after)
    (h : Displaces (s.queuedWaiting entry).key (s.asQueued entry).item w) :
    ∃ reason, Drops s (.push entry marks) reason w.entry := by
  have hkey : (s.queuedWaiting entry).key=(classify (s.asQueued entry).item).1 :=
    (s.queuedWaiting_formed entry).key
  rw [hkey] at h
  rcases h with ⟨hsome,hsame⟩ | ⟨window,raiser,fact,stamp,hnew,hitem,hclient⟩
  · obtain ⟨key,hnew⟩ := Option.isSome_iff_exists.mp hsome
    exact ⟨_,.replaced hspot hstretch (by rw [← hformed.key,hsame,hnew]) hnew⟩
  obtain ⟨hold,hraised⟩ := Bool.and_eq_true _ _ ▸ hclient
  refine ⟨_,.foregroundChange hspot hstretch (by rw [← hformed.key,of_decide_eq_true hold]) hnew ?_⟩
  intro focus change hfocus hchange
  refine not_raisedAfter hraised hfocus ?_
  rw [← hchange,Entry.stamp,hitem]

theorem resolvesWithoutRead_cases (s : Intake) (entry : Entry) :
    (∃ left : Waiting → Bool, (∀ w, left w=false → w.marker.isSome=true) ∧
      s.resolvesWithoutRead entry=some {s with waiting := s.waiting.filter left} ∧
      entry.item.isMarking=true) ∨
    (s.resolvesWithoutRead entry=none ∧
      (entry.item.isMarking=true → (markerOf entry).isSome=true)) := by
  rcases entry with ⟨item,trace,observedAtUs,front⟩
  rcases item with _ | _ | ⟨fact,stamp⟩ | _ | _ | _ | _ | _ | _
  case fact =>
    cases fact with
    | uiaFocusDropped marker focus noWindow =>
      refine .inl ⟨fun w => w.marker≠some marker,?_,rfl,rfl⟩
      intro w hw
      have hw : w.marker=some marker := by simpa using hw
      rw [hw]
      rfl
    | uiaFocusReadsEnded =>
      refine .inl ⟨fun w => w.marker.isNone,?_,rfl,rfl⟩
      intro w hw
      cases hmarker : w.marker <;> simp_all
    | _ => exact .inr ⟨rfl,fun h => by first | rfl | cases h⟩
  all_goals exact .inr ⟨rfl,fun h => by cases h⟩

/-- A closed intake takes nothing, a marker's end drops what it resolves, and any other entry is
queued. -/
theorem Intake.push_cases (s : Intake) (entry : Entry) (marks : Marks) :
    (s.closed=true ∧ s.push entry marks=(s,(unmarked entry).1.item.parked)) ∨ s.closed=false ∧
    ((∃ left : Waiting → Bool, (∀ w, left w=false → w.marker.isSome=true) ∧
        ({s with gap := s.gapAfter entry} : Intake).resolvesWithoutRead (s.asQueued entry) =
          some {s with gap := s.gapAfter entry, waiting := s.waiting.filter left} ∧
        (s.asQueued entry).item.isMarking=true ∧ s.push entry marks =
          ({s with gap := s.gapAfter entry, waiting := s.waiting.filter left},[])) ∨
      ({s with gap := s.gapAfter entry} : Intake).resolvesWithoutRead (s.asQueued entry)=none ∧
        ((s.asQueued entry).item.isMarking=true → (markerOf (s.asQueued entry)).isSome=true) ∧
        s.push entry marks =
          ({s with gap := s.gapAfter entry, waiting := s.requeued entry marks},
            (replaceKeyed s.waiting (s.queuedWaiting entry).key (s.asQueued entry).item
              ((s.resolves entry).bind fun resolves =>
                s.waiting.findIdx? fun w => w.marker=some resolves)).2.2)) := by
  unfold push
  by_cases hclosed : s.closed=true
  · exact .inl ⟨hclosed,if_pos hclosed⟩
  simp only [if_neg hclosed]
  rw [applyGapOutcome_fst]
  refine .inr ⟨by simpa using hclosed,?_⟩
  rcases resolvesWithoutRead_cases {s with gap := s.gapAfter entry} (s.asQueued entry) with
    ⟨left,hleft,hresolved,hmarking⟩ | ⟨hnone,hmarking⟩
  · refine .inl ⟨left,hleft,hresolved,hmarking,?_⟩
    unfold gapAfter asQueued at hresolved
    simp only [hresolved]
    rfl
  · refine .inr ⟨hnone,hmarking,?_⟩
    unfold gapAfter asQueued at hnone
    simp only [hnone]
    rfl

theorem filter_perm (keep : Waiting → Bool) (waiting : List Waiting) :
    (waiting.map (·.entry)).Perm ((waiting.filter keep).map (·.entry) ++
      (waiting.filter fun w => !keep w).map (·.entry)) := by
  rw [← map_append]
  exact (filter_append_perm keep waiting).symm.map _

theorem push_accounts (hs : Sound s) (hproper : entry.proper=true) :
    Accounts s (.push entry marks) (s.push entry marks).1 [s.asQueued entry] [] := by
  rcases s.push_cases entry marks with
    ⟨hclosed,heq⟩ | ⟨_,⟨left,hleft,_,hmarking,heq⟩ | ⟨_,_,heq⟩⟩
  · rw [heq]
    refine ⟨[s.asQueued entry],fun x => by simp,?_⟩
    intro x hx
    obtain rfl := mem_singleton.mp hx
    exact ⟨_,.closed hclosed⟩
  · rw [heq]
    refine ⟨s.asQueued entry::(s.waiting.filter fun w => !left w).map (·.entry),?_,?_⟩
    · intro x
      have hperm := tally_perm x (filter_perm left s.waiting)
      simp only [tally_append] at hperm
      simp only [entries,tally_append,tally_nil,tally_cons]
      omega
    · intro x hx
      rcases mem_cons.mp hx with rfl | hx
      · exact ⟨_,.marking hmarking⟩
      obtain ⟨w,hw,rfl⟩ := mem_map.mp hx
      obtain ⟨hmem,hgone⟩ := mem_filter.mp hw
      refine ⟨_,.marking (isMarking_of_marker (hs.formed w hmem) (hleft w ?_))⟩
      simpa using hgone
  rw [heq]
  obtain ⟨before,slot,after,before',after',lost,hspot,hreplaced,hqueued⟩ :=
    requeued_spec marks hs.formed hproper
  have hwaiting := hspot.waiting_eq
  refine ⟨(slot++lost).map (·.entry),?_,?_⟩
  · intro x
    have hperm := tally_perm x ((edited_perm hreplaced.edited).map (·.entry))
    simp only [map_append,tally_append] at hperm
    have hentry : (s.queuedWaiting entry).entry=s.asQueued entry := rfl
    simp only [entries,hqueued,hwaiting,map_append,map_cons,tally_append,
      tally_cons,tally_nil,hentry]
    omega
  · intro x hx
    obtain ⟨w,hw,rfl⟩ := mem_map.mp hx
    rcases mem_append.mp hw with hw | hw
    · have hformed := hs.formed w (by rw [hwaiting]; simp [hw])
      exact ⟨_,.marking (isMarking_of_marker hformed (hspot.slot_marker w hw))⟩
    obtain ⟨hstretch,hdisplaces⟩ := hreplaced.displaced w hw
    have hmem : w∈before++after := by
      have hmem := (edited_perm hreplaced.edited).mem_iff (a := w)
      exact hmem.mpr (mem_append_right _ hw)
    refine drops_of_displaces (hs.formed w ?_) hspot hstretch hdisplaces
    rw [hwaiting]
    rcases mem_append.mp hmem with hmem | hmem <;> simp [hmem]

variable {waiting : List Waiting} {w : Waiting}

theorem mem_removeWaiting {spot : Nat} {isIt : Waiting → Bool}
    (h : w∈(removeWaiting waiting spot isIt).1) : w∈waiting := by
  unfold removeWaiting at h
  simp only at h
  split at h
  · exact h
  · exact mem_of_mem_eraseIdx h

theorem mem_replaceKeyed {key : Option Key} {item : Item} {place : Option Nat}
    (h : w∈(replaceKeyed waiting key item place).1) : w∈waiting := by
  unfold replaceKeyed at h
  split at h
  · exact h
  split at h
  · exact mem_removeWaiting (mem_removeWaiting h)
  · exact mem_removeWaiting h

theorem mem_oldFocusEventsFirst {place : Nat} {old : List Int}
    (h : w∈(oldFocusEventsFirst waiting place old).1) : w∈waiting := by
  have hfold : ∀ (spots : List Nat) (state : List Waiting × Nat),
      w∈(spots.foldl (moveOldFocus old) state).1 → w∈state.1 := by
    intro spots
    induction spots with
    | nil => exact fun _ h => h
    | cons spot spots ih =>
      intro state h
      have hmoved := ih _ h
      unfold moveOldFocus at hmoved
      split at hmoved
      next moved hspot =>
        split at hmoved
        · rcases eq_or_mem_of_mem_insertIdx hmoved with rfl | hmem
          · exact mem_of_getElem? hspot
          · exact mem_of_mem_eraseIdx hmem
        · exact hmoved
      · exact hmoved
  exact hfold _ _ h

theorem mem_requeued (h : w∈s.requeued entry marks) : w∈s.waiting ∨ w=s.queuedWaiting entry := by
  have hmoved : ∀ place : Option Nat, w∈(moveAhead (replaceKeyed s.waiting
      (s.queuedWaiting entry).key (s.asQueued entry).item place).1
      (replaceKeyed s.waiting (s.queuedWaiting entry).key (s.asQueued entry).item place).2.1
      (enteredFrom (s.asQueued entry).item marks)).1 → w∈s.waiting := by
    intro place h
    unfold moveAhead at h
    split at h
    · exact mem_replaceKeyed (mem_oldFocusEventsFirst h)
    · exact mem_replaceKeyed h
  unfold requeued settle at h
  simp only at h
  split at h
  · split at h
    · rcases mem_or_eq_of_mem_set h with h | h
      · exact .inl (hmoved _ h)
      · exact .inr h
    · rcases mem_append.mp h with h | h
      · exact .inl (hmoved _ h)
      · exact .inr (mem_singleton.mp h)
  · rcases mem_append.mp h with h | h
    · exact .inl (hmoved _ h)
    · exact .inr (mem_singleton.mp h)

theorem push_sound (hs : Sound s) : Sound (s.push entry marks).1 := by
  rcases s.push_cases entry marks with
    ⟨_,heq⟩ | ⟨hclosed,⟨left,_,_,_,heq⟩ | ⟨_,hmarking,heq⟩⟩
  · exact heq ▸ hs
  · rw [heq]
    exact hs.restrict (fun w hw => mem_of_mem_filter hw) (fun _ => id) (fun _ => id) rfl
  rw [heq]
  refine ⟨?_,?_,hs.alone,hs.planned,fun h => absurd h (by simp [hclosed]),hs.kept⟩
  · intro w hw
    rcases mem_requeued hw with hw | rfl
    · exact hs.formed w hw
    · exact s.queuedWaiting_formed entry
  · intro w hw
    rcases mem_requeued hw with hw | rfl
    · exact hs.marker w hw
    · exact hmarking

end Push

section Next

/-- How much is ready: everything, what lies before a marker, or what lies before an idle query
and the query with it. -/
theorem ready_split (waiting : List Waiting) : ∃ free rest, (∀ w∈free, w.divides=false) ∧
    ((waiting=free ∧ rest=[] ∧ waiting.take (ready waiting)=free) ∨
      (∃ marker, marker.marker.isSome=true ∧ waiting=free++marker::rest ∧
        waiting.take (ready waiting)=free) ∨
      ∃ barrier, barrier.marker=none ∧ barrier.isBarrier=true ∧
        waiting=free++barrier::rest ∧
        waiting.take (ready waiting)=free++[barrier]) := by
  unfold ready
  cases hfind : waiting.findIdx? Waiting.divides with
  | none =>
    refine ⟨waiting,[],fun w hw => findIdx?_eq_none_iff.mp hfind w hw,.inl ⟨rfl,rfl,?_⟩⟩
    exact take_length
  | some spot =>
    obtain ⟨free,w,rest,rfl,rfl,hdivides,hfree⟩ := findIdx?_split hfind
    refine ⟨free,rest,hfree,.inr ?_⟩
    simp only [getElem?_split,Option.any_some]
    cases hmarker : w.marker with
    | some marker => exact .inl ⟨w,by rw [hmarker]; rfl,rfl,by simp⟩
    | none =>
      rw [Waiting.divides,hmarker] at hdivides
      refine .inr ⟨w,hmarker,by simpa using hdivides,rfl,?_⟩
      simp [take_append,take_of_length_le]

namespace Intake

variable (s : Intake) (marks : Marks)

def refill : Intake :=
  if 0<ready s.waiting then
    {s with
      waiting := s.waiting.drop (ready s.waiting)
      batch := plan (s.taken marks) marks.focused
      batchNumber := s.batchNumber+1}
  else s

def handOut : Intake × Option (Planned × Nat) :=
  match s.batch with
  | planned::batch => ({s with batch},some (planned,s.batchNumber))
  | [] => s.nextIdle

/-- The intake as `next` hands out from it. -/
def filled : Intake := if s.batch=[] then s.refill marks else s

theorem next_eq : s.next marks=(s.filled marks).handOut := by
  cases hbatch : s.batch with
  | cons planned batch =>
    have hfilled : s.filled marks=s := if_neg (by simp [hbatch])
    rw [hfilled]
    unfold next handOut
    rw [hbatch]
  | nil =>
    have hfilled : s.filled marks=s.refill marks := if_pos hbatch
    rw [hfilled]
    unfold next refill
    rw [hbatch]
    by_cases hready : 0<ready s.waiting
    · simp only [if_pos hready]
      rfl
    · simp only [if_neg hready,handOut,hbatch]

theorem filled_cases : s.filled marks=s ∨ s.batch=[] ∧ 0<ready s.waiting ∧ s.filled marks =
    {s with
      waiting := s.waiting.drop (ready s.waiting)
      batch := plan (s.taken marks) marks.focused
      batchNumber := s.batchNumber+1} := by
  unfold filled refill
  split
  next hbatch =>
    split
    next hready => exact .inr ⟨hbatch,hready,rfl⟩
    · exact .inl rfl
  · exact .inl rfl

end Intake

variable {s : Intake} {marks : Marks}

theorem filled_frame : (s.filled marks).idle=s.idle ∧ (s.filled marks).closed=s.closed := by
  rcases s.filled_cases marks with heq | ⟨_,_,heq⟩ <;> simp [heq]

theorem filled_accounts (s : Intake) (marks : Marks) :
    Accounts s (.next marks) (s.filled marks) [] [] := by
  rcases s.filled_cases marks with heq | ⟨hbatch,_,heq⟩ <;> rw [heq]
  · exact ⟨[],fun x => by simp,by simp⟩
  obtain ⟨lost,hlimits,hlost⟩ := admitWaiting_perm marks.focused (s.taken marks)
  obtain ⟨menus,hplan,hmenus⟩ := plan_perm (s.taken marks) marks.focused
  refine ⟨lost.map (·.entry)++menus,?_,?_⟩
  · intro x
    have htaken := tally_perm x ((caretAfterUpdate_perm
      (s.waiting.take (ready s.waiting)) marks.focused marks.terminal).map (·.entry))
    have hlimits := tally_perm x (hlimits.map (·.entry))
    have hplan := tally_perm x hplan
    have hsplit : s.waiting.map (·.entry) =
        (s.waiting.take (ready s.waiting)).map (·.entry) ++
          (s.waiting.drop (ready s.waiting)).map (·.entry) := by
      rw [← map_append,take_append_drop]
    change tally x ((s.taken marks).map (·.entry))=_ at htaken
    simp only [map_append,tally_append] at hlimits hplan
    simp only [entries,hbatch,hsplit,tally_append,flatMap_nil,tally_nil]
    omega
  · intro x hx
    rcases mem_append.mp hx with hx | hx
    · obtain ⟨w,hw,rfl⟩ := mem_map.mp hx
      obtain ⟨older,newer,htaken,hpast⟩ := hlost w hw
      exact ⟨_,.pastLimits hbatch htaken hpast⟩
    · obtain ⟨older,w,newer,hkept,rfl,hmenu,hnewest⟩ := hmenus x hx
      exact ⟨_,.olderMenu hbatch hkept hmenu hnewest⟩

theorem unmarked_of_not_divides {w : Waiting} (h : w.divides=false) : w.marker=none := by
  simpa using (Bool.or_eq_false_iff.mp h).1

theorem ready_unmarked {waiting : List Waiting} {w : Waiting}
    (hw : w∈waiting.take (ready waiting)) : w.marker=none := by
  obtain ⟨free,rest,hnone,hcases⟩ := ready_split waiting
  rcases hcases with ⟨_,_,htake⟩ | ⟨_,_,_,htake⟩ | ⟨barrier,hmarker,_,_,htake⟩
  · exact unmarked_of_not_divides (hnone w (htake ▸ hw))
  · exact unmarked_of_not_divides (hnone w (htake ▸ hw))
  rw [htake] at hw
  rcases mem_append.mp hw with hw | hw
  · exact unmarked_of_not_divides (hnone w hw)
  · rw [mem_singleton.mp hw]
    exact hmarker

theorem mem_taken {w : Waiting} : w∈s.taken marks ↔ w∈s.waiting.take (ready s.waiting) :=
  (caretAfterUpdate_perm _ _ _).mem_iff

variable {entry : Entry}

theorem mem_plan {waiting : List Waiting} {focused : Option Object} {p : Planned}
    (hp : p∈plan waiting focused) (hentry : entry∈p.entries) : ∃ w∈waiting, w.entry=entry := by
  obtain ⟨lost,hperm,_⟩ := plan_perm waiting focused
  have hmem := hperm.mem_iff.mpr (mem_append_left _ (mem_flatMap.mpr ⟨p,hp,hentry⟩))
  obtain ⟨w,hw,rfl⟩ := mem_map.mp hmem
  exact ⟨w,(admitWaiting_sublist focused waiting).subset hw,rfl⟩

theorem filled_sound (hs : Sound s) : Sound (s.filled marks) := by
  rcases s.filled_cases marks with heq | ⟨_,hready,heq⟩ <;> rw [heq]
  · exact hs
  have htaken : ∀ w∈s.taken marks, w∈s.waiting ∧ w.marker=none := fun w hw =>
    ⟨mem_of_mem_take (mem_taken.mp hw),ready_unmarked (mem_taken.mp hw)⟩
  refine ⟨?_,?_,?_,?_,?_,hs.kept⟩
  · exact fun w hw => hs.formed w (mem_of_mem_drop hw)
  · exact fun w hw => hs.marker w (mem_of_mem_drop hw)
  · intro p hp entry hentry
    refine (plan_keyed hp hentry).imp_right ?_
    rintro ⟨w,hw,rfl,hkey⟩
    rw [← (hs.formed w (htaken w hw).1).key]
    exact hkey
  · intro p hp entry hentry
    obtain ⟨w,hw,rfl⟩ := mem_plan hp hentry
    obtain ⟨hwaits,hmarker⟩ := htaken w hw
    by_contra hmarking
    have hsome := hs.marker w hwaits (by simpa using hmarking)
    rw [hmarker] at hsome
    cases hsome
  · intro hclosed
    rw [(hs.closed hclosed).1] at hready
    exact absurd hready (by decide)

/-- How the reducer takes what is next from an intake whose batch is planned. -/
inductive Takes (t : Intake) : Intake → List Entry → Prop where
  | handed {planned batch} (hbatch : t.batch=planned::batch) :
      Takes t {t with batch} planned.entries
  | putBack {asker trace observedAtUs front batch noted}
      (hbatch : t.batch=.run ⟨.barrier asker false,trace,observedAtUs,front⟩::batch)
      (hidle : t.idle=some noted) :
      Takes t (({t with batch, idle := none} : Intake).pushAhead
        [noted,⟨.barrier asker true,trace,observedAtUs,front⟩]) []
  | kept {noted} (hbatch : t.batch=[]) (hidle : t.idle=some noted) :
      Takes t {t with idle := none} [noted]
  | nothing (hbatch : t.batch=[]) : Takes t t []

theorem take_takes (s : Intake) (marks : Marks) :
    Takes (s.filled marks) (s.take marks).1 (s.take marks).2 := by
  unfold Intake.take
  rw [next_eq]
  generalize s.filled marks=t
  unfold handOut
  cases hbatch : t.batch with
  | cons planned batch =>
    simp only
    unfold putBehind
    split
    next asker trace observedAtUs =>
      cases hidle : t.idle with
      | none => simpa [takeIdle,hidle] using Takes.handed hbatch
      | some noted => simpa [takeIdle,hidle] using Takes.putBack hbatch hidle
    · exact Takes.handed hbatch
  | nil =>
    unfold nextIdle
    by_cases hclosed : t.closed=true
    · rw [if_pos hclosed]
      exact Takes.nothing hbatch
    rw [if_neg hclosed]
    cases hidle : t.idle with
    | none =>
      have hsame : ({t with idle := none} : Intake)=t := by rw [← hidle]
      rw [hsame]
      exact Takes.nothing hbatch
    | some noted =>
      have hback : ({t with idle := none} : Intake).putBehind (.run noted)=none := by
        unfold putBehind
        split <;> rfl
      simp only [Option.map_some,hback,Option.elim_none]
      exact Takes.kept hbatch hidle

theorem plainWaiting_formed (hentry : entry.item.isMarking=false) :
    (plainWaiting entry).Formed := by
  refine ⟨rfl,rfl,?_⟩
  change none=markerOf entry
  unfold markerOf
  split
  next hitem =>
    rw [hitem] at hentry
    cases hentry
  · rfl

theorem not_marking_of_noted {item : Item} (h : item.isNotedCaret=true) : item.isMarking=false := by
  cases item <;> cases h
  rfl

variable {t : Intake}

theorem open_of_batch (hs : Sound t) {planned : Planned} {batch : List Planned}
    (hbatch : t.batch=planned::batch) : t.closed=false := by
  by_contra hclosed
  rw [(hs.closed (by simpa using hclosed)).2] at hbatch
  cases hbatch

theorem pushAhead_eq (hopen : t.closed=false) (entries : List Entry) :
    t.pushAhead entries={t with waiting := entries.map plainWaiting++t.waiting} :=
  if_neg (by simp [hopen])

variable {handed : List Entry}

theorem pushAhead_sound {s : Intake} (hs : Sound s) {entries : List Entry}
    (h : ∀ entry∈entries, entry.item.isMarking=false) : Sound (s.pushAhead entries) := by
  unfold pushAhead
  split
  · exact hs
  next hopen =>
    have hfront (w) (hw : w∈entries.map plainWaiting) :
        w.Formed ∧ w.entry.item.isMarking=false := by
      obtain ⟨entry,hentry,rfl⟩ := mem_map.mp hw
      exact ⟨plainWaiting_formed (h entry hentry),h entry hentry⟩
    refine ⟨fun w hw => ?_,fun w hw hmarking => ?_,hs.alone,hs.planned,
      fun hclosed => absurd hclosed hopen,hs.kept⟩
    · rcases mem_append.mp hw with hw | hw
      · exact (hfront w hw).1
      · exact hs.formed w hw
    · rcases mem_append.mp hw with hw | hw
      · rw [(hfront w hw).2] at hmarking
        cases hmarking
      · exact hs.marker w hw hmarking

theorem takes_sound {t' : Intake} (hs : Sound t) (h : Takes t t' handed) : Sound t' := by
  cases h with
  | handed hbatch =>
    exact hs.restrict (fun _ => id) (fun p hp => hbatch ▸ mem_cons_of_mem _ hp) (fun _ => id) rfl
  | @putBack asker trace observedAtUs front batch noted hbatch hidle =>
    have hnoted := not_marking_of_noted (hs.kept noted (by rw [hidle]; rfl))
    have hleft : Sound {t with batch, idle := none} :=
      hs.restrict (fun _ => id) (fun p hp => hbatch ▸ mem_cons_of_mem _ hp) (by simp) rfl
    refine pushAhead_sound hleft ?_
    exact forall_mem_cons.2 ⟨hnoted,forall_mem_singleton.2 rfl⟩
  | kept hbatch hidle => exact hs.restrict (fun _ => id) (fun _ => id) (by simp) rfl
  | nothing hbatch => exact hs

theorem unkept_of_kept (kept : Option Entry) : (if kept=none then kept.toList else [])=[] := by
  cases kept <;> rfl

theorem takes_tally {t' : Intake} (hs : Sound t) (h : Takes t t' handed) (entry : Entry) :
    tally entry t.entries+tally entry (if t'.idle=none then t.idle.toList else []) =
      tally entry t'.entries+tally entry handed := by
  cases h with
  | handed hbatch =>
    simp only [unkept_of_kept,entries,hbatch,flatMap_cons,tally_append,tally_nil]
    omega
  | @putBack asker trace observedAtUs front batch noted hbatch hidle =>
    have hopen := open_of_batch hs hbatch
    have hsame : Entry.asPushed ⟨.barrier asker true,trace,observedAtUs,front⟩ =
        Entry.asPushed ⟨.barrier asker false,trace,observedAtUs,front⟩ := rfl
    rw [pushAhead_eq (t := {t with batch, idle := none}) hopen]
    simp only [if_true,hidle,Option.toList_some,entries,hbatch,flatMap_cons,
      tally_append,tally_cons,tally_nil,map_append,map_cons,map_nil,
      plainWaiting,Planned.entries,hsame]
    omega
  | kept hbatch hidle =>
    simp only [if_true,hidle,Option.toList_some,entries,hbatch,flatMap_nil,
      tally_append,tally_cons,tally_nil]
  | nothing hbatch => simp only [unkept_of_kept,tally_nil]

theorem take_accounts (hs : Sound s) : Accounts s (.next marks) (s.take marks).1
      (if (s.take marks).1.idle=none then s.idle.toList else []) (s.take marks).2 := by
  obtain ⟨lost,hfill,hlost⟩ := filled_accounts s marks
  refine ⟨lost,fun x => ?_,hlost⟩
  have htake := takes_tally (filled_sound hs) (take_takes s marks) x
  have hfill := hfill x
  rw [filled_frame.1] at htake
  omega

theorem mem_handed {t' : Intake} (hs : Sound t) (h : Takes t t' handed) (hentry : entry∈handed) :
    entry.item.isMarking=false := by
  cases h with
  | handed hbatch => exact hs.planned _ (by rw [hbatch]; simp) entry hentry
  | putBack hbatch hidle => cases hentry
  | kept hbatch hidle =>
    obtain rfl := mem_singleton.mp hentry
    exact not_marking_of_noted (hs.kept _ (by rw [hidle]; rfl))
  | nothing hbatch => cases hentry

end Next

section Cancel

variable {s : Intake}

theorem cancel_batch (hs : Sound s) (id : RequestId) :
    (s.batch.filter fun p => !p.entries.any (isQuery id)).flatMap Planned.entries =
      (s.batch.flatMap Planned.entries).filter fun entry => !isQuery id entry := by
  have halone := hs.alone
  generalize s.batch=batch at halone
  induction batch with
  | nil => rfl
  | cons p batch ih =>
    have ih := ih fun q hq => halone q (mem_cons_of_mem _ hq)
    rw [flatMap_cons,filter_append,← ih,filter_cons]
    cases hany : p.entries.any (isQuery id) with
    | true =>
      obtain ⟨entry,hentry,hquery⟩ := any_eq_true.mp hany
      obtain ⟨query,hitem⟩ := item_of_isQuery hquery
      rcases halone p (by simp) entry hentry with rfl | hkey
      · simp [Planned.entries,hquery]
      · rw [hitem] at hkey
        cases hkey
    | false =>
      have hnone : p.entries.filter (fun entry => !isQuery id entry)=p.entries := by
        rw [filter_eq_self]
        intro entry hentry
        simpa using any_eq_false.mp hany entry hentry
      rw [hnone]
      simp

theorem cancel_eq (s : Intake) (id : RequestId) :
    (s.cancel id).1={s with
      waiting := s.waiting.filter (fun w => !isQuery id w.entry)
      batch := s.batch.filter (fun planned => !planned.entries.any (isQuery id))} := by
  unfold cancel
  cases hfind : s.entries.find? (isQuery id) with
  | some entry => rfl
  | none =>
    have hnone := find?_eq_none.mp hfind
    have hwaiting : s.waiting.filter (fun w => !isQuery id w.entry)=s.waiting := by
      rw [filter_eq_self]
      intro w hw
      simpa using hnone w.entry (mem_append_left _ (mem_map_of_mem hw))
    have hbatch : s.batch.filter (fun planned => !planned.entries.any (isQuery id))=s.batch := by
      rw [filter_eq_self]
      intro p hp
      simp only [Bool.not_eq_true',any_eq_false]
      intro entry hentry
      exact hnone entry (mem_append_right _ (mem_flatMap.mpr ⟨p,hp,hentry⟩))
    simp only [hwaiting,hbatch]

theorem cancel_accounts (hs : Sound s) (id : RequestId) :
    Accounts s (.cancel id) (s.cancel id).1 [] [] := by
  refine ⟨s.entries.filter (isQuery id),?_,?_⟩
  · intro x
    have hsplit := tally_perm x (filter_append_perm (isQuery id) s.entries)
    have hleft : (s.cancel id).1.entries=s.entries.filter fun entry => !isQuery id entry := by
      rw [cancel_eq]
      unfold entries
      rw [filter_append,← cancel_batch hs,filter_map]
      rfl
    rw [hleft]
    simp only [tally_append,tally_nil] at hsplit ⊢
    omega
  · intro entry hentry
    obtain ⟨query,hitem⟩ := item_of_isQuery (mem_filter.mp hentry).2
    exact ⟨_,.cancelled hitem⟩

theorem cancel_sound (hs : Sound s) (id : RequestId) : Sound (s.cancel id).1 := by
  rw [cancel_eq]
  exact hs.restrict (fun w hw => mem_of_mem_filter hw) (fun p hp => mem_of_mem_filter hp)
    (fun _ h => h) rfl

end Cancel

section Runs

/-- What the intake's callers promise of an operation: a marked event is a selection or a
notification, noted carets are kept and nothing else is, and an idle query arrives once. -/
def Op.proper : Op → Bool
  | .push entry _ =>
      entry.proper && !entry.item.isNotedCaret && decide (entry.asPushed=entry)
  | .whenIdle entry => entry.item.isNotedCaret
  | _ => true

def Op.pushed? : Op → Option Entry
  | .push entry _ => some entry
  | _ => none

/-- A run of distinct entries, as the intake's callers give them. -/
structure Distinct (ops : List Op) : Prop where
  proper : ∀ op∈ops, op.proper=true
  traces : ((ops.filterMap Op.pushed?).map (·.trace)).Nodup

variable {ops : List Op}

theorem Distinct.of_append {after : List Op} (h : Distinct (ops++after)) : Distinct ops := by
  refine ⟨fun op hop => h.proper op (by simp [hop]),?_⟩
  have htraces := h.traces
  rw [filterMap_append,map_append] at htraces
  exact (nodup_append.mp htraces).1

theorem Distinct.of_concat {op : Op} (h : Distinct (ops++[op])) :
    Distinct ops ∧ op.proper=true := ⟨h.of_append,h.proper op (by simp)⟩

theorem run_concat (op : Op) : Ledger.run (ops++[op])=(Ledger.run ops).step op := by
  simp [Ledger.run]

theorem whenIdle_sound {s : Intake} {entry : Entry} (hs : Sound s)
    (h : entry.item.isNotedCaret=true) : Sound (s.whenIdle entry) := by
  refine ⟨hs.formed,hs.marker,hs.alone,hs.planned,hs.closed,?_⟩
  rintro kept ⟨⟩
  exact h

theorem step_sound {l : Ledger} {op : Op} (hs : Sound l.intake)
    (hkept : ∀ entry, op=.whenIdle entry → entry.item.isNotedCaret=true) :
    Sound (l.step op).intake := by
  cases op with
  | push entry marks => exact push_sound hs
  | next marks => exact takes_sound (filled_sound hs) (take_takes l.intake marks)
  | cancel id => exact cancel_sound hs id
  | whenIdle entry => exact whenIdle_sound hs (hkept entry rfl)
  | takeIdle =>
    exact hs.restrict (fun _ => id) (fun _ => id) (by simp [Ledger.step,takeIdle]) rfl
  | setGap gap => exact hs.restrict (fun _ => id) (fun _ => id) (fun _ => id) rfl
  | close => exact .of_empty rfl rfl rfl

theorem run_sound (h : Distinct ops) : Sound (Ledger.run ops).intake := by
  induction ops using reverseRecOn with
  | nil => exact .of_empty rfl rfl rfl
  | append_singleton ops op ih =>
    rw [run_concat]
    refine step_sound (ih h.of_concat.1) ?_
    rintro entry rfl
    exact h.of_concat.2

theorem accounts_refl {s s' : Intake} (op : Op) (h : s'.entries=s.entries) :
    Accounts s op s' [] [] :=
  ⟨[],fun x => by simp [h],by simp⟩

/-- What one operation puts in, with what was there, is there still, was handed out or was
dropped. -/
theorem step_accounts {l : Ledger} {op : Op} (hs : Sound l.intake) (hproper : op.proper=true) :
    ∃ added unkept handed, (l.step op).pushed=l.pushed++added ∧
      (l.step op).unkept=l.unkept++unkept ∧ (l.step op).handed=l.handed++handed ∧
      (∀ entry∈handed, entry.item.isMarking=false) ∧
      (∀ entry∈unkept, entry.item.isNotedCaret=true) ∧
      Accounts l.intake op (l.step op).intake (added++unkept) handed := by
  have hnil : ∀ p : Entry → Prop, ∀ entry∈([] : List Entry), p entry := by simp
  cases op with
  | push entry marks =>
    simp only [Op.proper,Bool.and_eq_true] at hproper
    refine ⟨[_],[],[],rfl,by simp [Ledger.step],by simp [Ledger.step],hnil _,hnil _,?_⟩
    exact push_accounts hs hproper.1.1
  | next marks =>
    refine ⟨[],if (l.intake.take marks).1.idle=none then l.intake.idle.toList else [],
      (l.intake.take marks).2,by simp [Ledger.step],rfl,rfl,?_,?_,take_accounts hs⟩
    · exact fun entry hentry =>
        mem_handed (filled_sound hs) (take_takes l.intake marks) hentry
    intro entry hentry
    by_cases hidle : (l.intake.take marks).1.idle=none
    · rw [if_pos hidle] at hentry
      exact hs.kept entry (Option.mem_toList.mp hentry)
    · rw [if_neg hidle] at hentry
      cases hentry
  | cancel id =>
    refine ⟨[],[],[],?_,?_,?_,hnil _,hnil _,cancel_accounts hs id⟩ <;> simp [Ledger.step]
  | whenIdle _ | takeIdle | setGap _ =>
    refine ⟨[],[],[],?_,?_,?_,hnil _,hnil _,accounts_refl _ rfl⟩ <;> simp [Ledger.step]
  | close =>
    refine ⟨[],[],[],?_,?_,?_,hnil _,hnil _,l.intake.entries,?_,?_⟩
    · simp [Ledger.step]
    · simp [Ledger.step]
    · simp [Ledger.step]
    · simp [Ledger.step,close,entries]
    · exact fun entry hentry => ⟨_,.closing hentry⟩

variable {entry : Entry}

theorem Dropped.concat {op : Op} {reason : Reason} (h : Dropped ops reason entry) :
    Dropped (ops++[op]) reason entry := by
  obtain ⟨before,other,after,rfl,hdrops⟩ := h
  exact ⟨before,other,after++[op],by simp,hdrops⟩

/-- Over a run, what was pushed and the noted carets that were let go are there still, were handed
out or were dropped. -/
theorem run_accounts (h : Distinct ops) :
    (∃ lost, (∀ entry, tally entry ((Ledger.run ops).pushed++(Ledger.run ops).unkept) =
        tally entry (Ledger.run ops).intake.entries+tally entry (Ledger.run ops).handed +
          tally entry lost) ∧
      ∀ entry∈lost, ∃ reason, Dropped ops reason entry) ∧
    (∀ entry∈(Ledger.run ops).handed, entry.item.isMarking=false) ∧
    ∀ entry∈(Ledger.run ops).unkept, entry.item.isNotedCaret=true := by
  induction ops using reverseRecOn with
  | nil => exact ⟨⟨[],fun _ => rfl,by simp⟩,by simp [Ledger.run,Ledger.new],
      by simp [Ledger.run,Ledger.new]⟩
  | append_singleton ops op ih =>
    obtain ⟨⟨lost,hcount,hlost⟩,hhanded,hunkept⟩ := ih h.of_concat.1
    obtain ⟨added,unkept,handed,hpushed,hkept,hout,hmarking,hnoted,gone,hstep,hgone⟩ :=
      step_accounts (run_sound h.of_concat.1) h.of_concat.2
    rw [run_concat,hpushed,hkept,hout]
    refine ⟨⟨lost++gone,?_,?_⟩,?_,?_⟩
    · intro entry
      have hcount := hcount entry
      have hstep := hstep entry
      simp only [tally_append] at hcount hstep ⊢
      omega
    · intro entry hentry
      rcases mem_append.mp hentry with hentry | hentry
      · obtain ⟨reason,hdropped⟩ := hlost entry hentry
        exact ⟨reason,hdropped.concat⟩
      · obtain ⟨reason,hdrops⟩ := hgone entry hentry
        exact ⟨reason,ops,op,[],rfl,hdrops⟩
    · exact fun entry hentry => (mem_append.mp hentry).elim (hhanded entry) (hmarking entry)
    · exact fun entry hentry => (mem_append.mp hentry).elim (hunkept entry) (hnoted entry)

theorem asQueued_proper (s : Intake) {marks : Marks} (hproper : (Op.push entry marks).proper=true) :
    (s.asQueued entry).asPushed=s.asQueued entry ∧ (s.asQueued entry).item.isNotedCaret=false := by
  simp only [Op.proper,Bool.and_eq_true,decide_eq_true_eq,Bool.not_eq_true'] at hproper
  obtain ⟨⟨hmarked,hnoted⟩,hpushed⟩ := hproper
  unfold asQueued
  rcases s.applyGapOutcome_cases (unmarked entry).1 with h | ⟨_,_,_,_,_,_,h⟩
  · rw [h]
    unfold unmarked
    split
    · exact ⟨rfl,rfl⟩
    · exact ⟨hpushed,hnoted⟩
  · rw [h]
    exact ⟨rfl,rfl⟩

theorem run_pushed (h : Distinct ops) :
    (Ledger.run ops).pushed.map (·.trace)=(ops.filterMap Op.pushed?).map (·.trace) ∧
      ∀ entry∈(Ledger.run ops).pushed, entry.asPushed=entry ∧ entry.item.isNotedCaret=false := by
  induction ops using reverseRecOn with
  | nil => exact ⟨rfl,by simp [Ledger.run,Ledger.new]⟩
  | append_singleton ops op ih =>
    obtain ⟨htraces,hall⟩ := ih h.of_concat.1
    have hproper := h.of_concat.2
    rw [run_concat,filterMap_append,map_append,← htraces]
    cases op with
    | push entry marks =>
      refine ⟨?_,?_⟩
      · simp [Ledger.step,Op.pushed?,asQueued_trace]
      intro other hother
      rcases mem_append.mp hother with hother | hother
      · exact hall other hother
      · obtain rfl := mem_singleton.mp hother
        exact asQueued_proper _ hproper
    | _ => exact ⟨by simp [Ledger.step,Op.pushed?],hall⟩

theorem asPushed_frame (entry : Entry) : entry.asPushed.trace=entry.trace ∧
    entry.asPushed.item.isNotedCaret=entry.item.isNotedCaret := by
  unfold Entry.asPushed
  split
  next hitem => exact ⟨rfl,by rw [hitem]; rfl⟩
  · exact ⟨rfl,rfl⟩

theorem tally_pushed (h : Distinct ops) (hentry : entry∈(Ledger.run ops).pushed) :
    tally entry ((Ledger.run ops).pushed++(Ledger.run ops).unkept)=1 := by
  obtain ⟨htraces,hall⟩ := run_pushed h
  have hnodup : (Ledger.run ops).pushed.Nodup := List.Nodup.of_map _ (htraces ▸ h.traces)
  have hpushed : tally entry (Ledger.run ops).pushed=1 := by
    have hid : (Ledger.run ops).pushed.map Entry.asPushed=(Ledger.run ops).pushed := by
      conv_rhs => rw [← map_id (Ledger.run ops).pushed]
      exact map_congr_left fun other hother => (hall other hother).1
    rw [tally,hid]
    exact count_eq_one_of_mem hnodup hentry
  have hunkept : tally entry (Ledger.run ops).unkept=0 := by
    refine count_eq_zero.mpr fun hmem => ?_
    obtain ⟨noted,hnoted,heq⟩ := mem_map.mp hmem
    have hcaret := (run_accounts h).2.2 noted hnoted
    have hnot := (hall entry hentry).2
    rw [← heq,(asPushed_frame noted).2,hcaret] at hnot
    cases hnot
  rw [tally_append,hpushed,hunkept]

theorem not_unlimited_of_pastLimits (h : Distinct ops) (hdropped : Dropped ops .pastLimits entry) :
    entry.item.isUnlimited=false := by
  obtain ⟨before,op,after,rfl,hdrops⟩ := hdropped
  have hsound := run_sound h.of_append
  cases hdrops with
  | @pastLimits marks older w newer hbatch htaken hpast =>
    have hmem : w∈(Ledger.run before).intake.taken marks := by simp [htaken]
    have hcategory := (hsound.formed w (mem_of_mem_take (mem_taken.mp hmem))).category
    unfold Outpost.pastLimits at hpast
    rw [hcategory] at hpast
    cases hitem : w.entry.item with
    | fact fact stamp =>
      rw [hitem] at hpast
      cases fact <;> first | rfl | cases hpast
    | msaa kind hwnd idObject idChild raiser | notedCaret _ | gapBound _ | gapRead _ => rfl
    | _ =>
      rw [hitem] at hpast
      cases hpast

/-- Each entry pushed waits, is planned or was handed out, once, or it was dropped for one of the
reasons named; markers and what resolves them without a read are never handed out, and queries,
idle queries, held-node lists and UIA events are never dropped by the limits. -/
theorem handed_once_or_dropped (ops : List Op) (h : Distinct ops) :
    (∀ entry∈(Ledger.run ops).pushed,
      tally entry (Ledger.run ops).intake.entries+tally entry (Ledger.run ops).handed=1 ∨
      tally entry (Ledger.run ops).intake.entries+tally entry (Ledger.run ops).handed=0 ∧
        ∃ reason gone, gone.asPushed=entry ∧ Dropped ops reason gone) ∧
    (∀ entry∈(Ledger.run ops).handed, entry.item.isMarking=false) ∧
    ∀ entry, Dropped ops .pastLimits entry → entry.item.isUnlimited=false := by
  obtain ⟨⟨lost,hcount,hlost⟩,hhanded,_⟩ := run_accounts h
  refine ⟨?_,hhanded,fun entry hdropped => not_unlimited_of_pastLimits h hdropped⟩
  intro entry hentry
  have hcount := hcount entry
  rw [tally_pushed h hentry] at hcount
  by_cases hnone : tally entry lost=0
  · exact .inl (by omega)
  refine .inr ⟨by omega,?_⟩
  obtain ⟨gone,hgone,heq⟩ := mem_map.mp (count_pos_iff.mp (Nat.pos_of_ne_zero hnone))
  obtain ⟨reason,hdropped⟩ := hlost gone hgone
  exact ⟨reason,gone,heq,hdropped⟩

/-- Two name changes of one object, an idle query behind them, and a noted caret it is put
behind. -/
def replacedRun : List Op :=
  [.push ⟨.msaa .nameChange 9 objidClient 1 3,1,10,.untested⟩ ⟨none,.none⟩,
    .push ⟨.msaa .nameChange 9 objidClient 1 3,2,20,.untested⟩ ⟨none,.none⟩,
    .push ⟨.barrier (.round 7) false,3,30,.untested⟩ ⟨none,.none⟩,
    .whenIdle ⟨.notedCaret 4,1,10,.untested⟩,
    .next ⟨none,.none⟩,.next ⟨none,.none⟩,.next ⟨none,.none⟩,.next ⟨none,.none⟩]

theorem replacedRun_accounted :
    (Ledger.run replacedRun).handed=[⟨.msaa .nameChange 9 objidClient 1 3,2,20,.untested⟩,
      ⟨.notedCaret 4,1,10,.untested⟩,⟨.barrier (.round 7) true,3,30,.untested⟩] ∧
    ∃ reason gone, gone.asPushed=⟨.msaa .nameChange 9 objidClient 1 3,1,10,.untested⟩ ∧
      Dropped replacedRun reason gone := by
  refine ⟨by decide +kernel,?_⟩
  have hdistinct : Distinct replacedRun := ⟨by decide +kernel,by decide +kernel⟩
  have hmem : (⟨.msaa .nameChange 9 objidClient 1 3,1,10,.untested⟩ : Entry) ∈
      (Ledger.run replacedRun).pushed := by decide +kernel
  refine (((handed_once_or_dropped replacedRun hdistinct).1 _ hmem).resolve_left ?_).2
  decide +kernel

end Runs

end Verbatim.Outpost
