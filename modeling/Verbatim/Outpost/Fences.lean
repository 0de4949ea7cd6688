import Verbatim.Outpost.Barriers
import Verbatim.Outpost.Pumping

namespace Verbatim.Outpost

open Framework List Intake Nat

section Arrived

def After (arrived : List Entry) (barrier : Entry) (trace : TraceId) : Prop :=
  ∃ p q, [p,q].Sublist arrived ∧ p.asPushed=barrier.asPushed ∧ q.trace=trace

def Came (arrived : List Entry) (entry : Entry) : Prop := ∃ p∈arrived, p.asPushed=entry.asPushed

variable {arrived : List Entry} {barrier : Entry} {trace : TraceId}

theorem After.append (h : After arrived barrier trace) (more : List Entry) :
    After (arrived++more) barrier trace := by
  obtain ⟨p,q,hsub,hp,hq⟩ := h
  exact ⟨p,q,hsub.trans (sublist_append_left _ _),hp,hq⟩

theorem Came.append (h : Came arrived barrier) (more : List Entry) :
    Came (arrived++more) barrier := by
  obtain ⟨p,hmem,hp⟩ := h
  exact ⟨p,mem_append_left _ hmem,hp⟩

theorem Came.after (h : Came arrived barrier) {more : List Entry} {entry : Entry}
    (hentry : entry∈more) : After (arrived++more) barrier entry.trace := by
  obtain ⟨p,hmem,hp⟩ := h
  refine ⟨p,entry,?_,hp,rfl⟩
  exact (singleton_sublist.mpr hmem).append (singleton_sublist.mpr hentry)

end Arrived

/-- What waits behind an idle query arrived after it, and a planned one ends its batch. -/
structure Fenced (arrived : List Entry) (i : Intake) : Prop where
  came : ∀ entry∈i.entries, entry.item.isBarrier=true → Came arrived entry
  ordered : i.waiting.Pairwise (fun a b => a.isBarrier=true → After arrived a.entry b.entry.trace)
  planned : ∀ barrier∈i.plannedEntries, barrier.item.isBarrier=true →
    ∀ w∈i.waiting, After arrived barrier w.entry.trace
  last : ∀ p∈i.batch.dropLast, ∀ entry∈p.entries, entry.item.isBarrier=false

namespace Fenced

variable {arrived : List Entry} {i i' : Intake} (h : Fenced arrived i)
include h

theorem append (more : List Entry) : Fenced (arrived++more) i :=
  ⟨fun entry hentry hyes => (h.came entry hentry hyes).append more,
    h.ordered.imp fun hab hyes => (hab hyes).append more,
    fun barrier hbarrier hyes w hw => (h.planned barrier hbarrier hyes w hw).append more,h.last⟩

theorem restrict (hwaiting : i'.waiting.Sublist i.waiting)
    (hplanned : ∀ entry∈i'.plannedEntries, entry∈i.plannedEntries)
    (hlast : ∀ p∈i'.batch.dropLast, p∈i.batch.dropLast) : Fenced arrived i' := by
  refine ⟨?_,h.ordered.sublist hwaiting,?_,fun p hp => h.last p (hlast p hp)⟩
  · intro entry hentry
    refine h.came entry ?_
    rcases mem_append.mp hentry with hentry | hentry
    · exact mem_append_left _ ((hwaiting.map _).subset hentry)
    · exact mem_entries_of_planned (hplanned entry hentry)
  · exact fun barrier hbarrier hyes w hw =>
      h.planned barrier (hplanned barrier hbarrier) hyes w (hwaiting.subset hw)

theorem frame (hwaiting : i'.waiting=i.waiting)
    (hbatch : i'.batch=i.batch) : Fenced arrived i' := by
  refine h.restrict (hwaiting ▸ List.Sublist.refl _) ?_ ?_
  · rw [plannedEntries,hbatch]
    exact fun _ hentry => hentry
  · rw [hbatch]
    exact fun _ hp => hp

theorem filter (keep : Waiting → Bool) (keepPlanned : Planned → Bool) : Fenced arrived
      {i with waiting := i.waiting.filter keep, batch := i.batch.filter keepPlanned} := by
  refine h.restrict filter_sublist ?_ fun p hp => mem_dropLast_of_filter hp
  intro entry hentry
  obtain ⟨p,hp,hentry⟩ := mem_flatMap.mp hentry
  exact mem_flatMap.mpr ⟨p,mem_of_mem_filter hp,hentry⟩

end Fenced

section Push

variable {arrived : List Entry} {i : Intake} {entry : Entry} {marks : Marks}

theorem asQueued_barrier (i : Intake) (entry : Entry)
    (h : (i.asQueued entry).item.isBarrier=true) : i.asQueued entry=entry := by
  have hunmarked : (unmarked entry).1.item.isBarrier=true → (unmarked entry).1=entry := by
    unfold unmarked
    split
    · exact fun h => absurd h (by simp [Item.isBarrier])
    · exact fun _ => rfl
  unfold asQueued at h ⊢
  rcases i.applyGapOutcome_cases (unmarked entry).1 with hsame | ⟨_,_,_,_,_,_,hread⟩
  · rw [hsame] at h ⊢
    exact hunmarked h
  · rw [hread] at h
    cases h

theorem barrier_back {before slot after before' after' lost : List Waiting} {key : Option Key}
    {item : Item} (hproper : entry.proper=true) (hbarrier : (i.asQueued entry).item.isBarrier=true)
    (hspot : Spot i.waiting (i.resolves entry) before slot after)
    (hreplaced : Replaced key item before after before' after' lost) : after'=[] := by
  have hafter : after=[] := by
    rcases hspot.cases with ⟨_,_,hafter,_⟩ | ⟨n,_,hresolves,_⟩
    · exact hafter
    · have hdivides := (resolves_some hproper hresolves).2
      simp [Waiting.divides,Waiting.isBarrier,queuedWaiting,hbarrier] at hdivides
  have hsubset := (edited_subset hreplaced.edited).2
  rw [hafter] at hsubset
  exact eq_nil_iff_forall_not_mem.mpr fun w hw => not_mem_nil (hsubset w hw)

theorem push_fenced (hs : Sound i) (hproper : entry.proper=true) (h : Fenced arrived i) :
    Fenced (arrived++[entry]) (i.push entry marks).1 := by
  have hmore := h.append [entry]
  rcases i.push_cases entry marks with ⟨_,heq⟩ | ⟨_,⟨left,_,_,_,heq⟩ | ⟨_,_,heq⟩⟩
  · exact heq ▸ hmore
  · rw [heq]
    refine (hmore.filter left fun _ => true).frame rfl ?_
    exact (filter_eq_self.mpr fun _ _ => rfl).symm
  rw [heq]
  obtain ⟨before,slot,after,before',after',lost,hspot,hreplaced,hqueued⟩ :=
    requeued_spec marks hs.formed hproper
  have htrace : (i.queuedWaiting entry).entry.trace=entry.trace := i.asQueued_trace entry
  have hmem : ∀ w∈before', w∈i.waiting := by
    intro w hw
    have hsubset := (edited_subset hreplaced.edited).1 w hw
    rw [hspot.waiting_eq]
    simp only [mem_append]
    tauto
  have hcame : ∀ e∈i.entries, e.item.isBarrier=true →
      After (arrived++[entry]) e entry.trace := fun e he hyes =>
    (h.came e he hyes).after (mem_singleton.mpr rfl)
  refine ⟨?_,?_,?_,h.last⟩
  · intro e he hyes
    rcases mem_append.mp he with he | he
    · obtain ⟨w,hw,rfl⟩ := mem_map.mp he
      rcases mem_requeued hw with hw | rfl
      · exact hmore.came _ (mem_entries_of_waiting hw) hyes
      · rw [show (i.queuedWaiting entry).entry=entry from asQueued_barrier i entry hyes]
        exact ⟨entry,by simp,rfl⟩
    · exact hmore.came e (mem_entries_of_planned he) hyes
  · rw [hqueued]
    have hkept : (before++after).Pairwise fun a b => a.isBarrier=true →
        After (arrived++[entry]) a.entry b.entry.trace := by
      refine hmore.ordered.sublist ?_
      rw [hspot.waiting_eq]
      exact List.Sublist.append_left (sublist_append_right _ _) _
    obtain ⟨hleft,hright,hcross⟩ := pairwise_append.mp (edited_ordered (fun a b ha _ hyes => by
        rw [not_barrier_of_not_divides ha] at hyes
        cases hyes) hreplaced.edited hkept)
    refine pairwise_append.mpr ⟨hleft,pairwise_cons.mpr ⟨?_,hright⟩,?_⟩
    · intro w hw hyes
      rw [barrier_back hproper hyes hspot hreplaced] at hw
      cases hw
    · intro a ha b hb hyes
      rcases mem_cons.mp hb with rfl | hb
      · rw [htrace]
        exact hcame _ (mem_entries_of_waiting (hmem a ha)) hyes
      · exact hcross a ha b hb hyes
  · intro barrier hbarrier hyes w hw
    rcases mem_requeued hw with hw | rfl
    · exact hmore.planned barrier hbarrier hyes w hw
    · rw [htrace]
      exact hcame barrier (mem_entries_of_planned hbarrier) hyes

end Push

section Take

variable {arrived : List Entry} {i t t' : Intake} {marks : Marks} {out : List Entry}

theorem filled_fenced (hs : Sound i) (h : Fenced arrived i) : Fenced arrived (i.filled marks) := by
  rcases i.filled_cases marks with heq | ⟨_,_,heq⟩ <;> rw [heq]
  · exact h
  have hwaiting := take_append_drop (ready i.waiting) i.waiting
  have hordered := h.ordered
  rw [← hwaiting] at hordered
  obtain ⟨_,hrest,hacross⟩ := pairwise_append.mp hordered
  obtain ⟨hlast,hplanned⟩ := @plan_barriers i marks hs
  refine ⟨?_,hrest,?_,hlast⟩
  · intro entry hentry hyes
    refine h.came entry ?_ hyes
    rcases mem_append.mp hentry with hentry | hentry
    · obtain ⟨w,hw,rfl⟩ := mem_map.mp hentry
      exact mem_entries_of_waiting (mem_of_mem_drop hw)
    obtain ⟨p,hp,hentry⟩ := mem_flatMap.mp hentry
    obtain ⟨w,hw,rfl⟩ := mem_plan hp hentry
    exact mem_entries_of_waiting (mem_of_mem_take (mem_taken.mp hw))
  · intro entry hentry hyes w hw
    obtain ⟨p,hp,hentry⟩ := mem_flatMap.mp hentry
    obtain ⟨free,barrier,htake,hbarrier,rfl⟩ := hplanned p hp entry hentry hyes
    exact hacross barrier (by rw [htake]; simp) w hw hbarrier

theorem takes_fenced (hs : Sound t) (h : Fenced arrived t) (htakes : Takes t t' out) :
    Fenced arrived t' := by
  cases htakes with
  | @handed planned batch hbatch =>
    refine h.restrict (List.Sublist.refl _) ?_ ?_
    · intro entry hentry
      rw [plannedEntries,hbatch]
      exact mem_append_right _ hentry
    · intro p hp
      rw [hbatch]
      cases batch with
      | nil => cases hp
      | cons q batch => exact mem_cons_of_mem _ hp
  | @putBack asker trace observedAtUs front batch noted hbatch hidle =>
    have hmem : (⟨.barrier asker false,trace,observedAtUs,front⟩ : Entry)∈t.plannedEntries :=
      mem_planned hbatch mem_cons_self
    have hcaret : (plainWaiting noted).isBarrier=false :=
      not_barrier_of_noted (hs.kept noted (by rw [hidle]; rfl))
    have hopen := open_of_batch hs hbatch
    obtain rfl := last_of_barrier (hbatch ▸ h.last) mem_cons_self rfl
    rw [pushAhead_eq (t := {t with batch := [], idle := none}) hopen]
    refine ⟨?_,?_,?_,?_⟩
    · intro entry hentry hyes
      rcases mem_putBack hentry with rfl | rfl | ⟨w,hw,rfl⟩
      · rw [show entry.item.isBarrier=false from hcaret] at hyes
        cases hyes
      · obtain ⟨p,hp,hsame⟩ := h.came _ (mem_entries_of_planned hmem) rfl
        exact ⟨p,hp,hsame⟩
      · exact h.came _ (mem_entries_of_waiting hw) hyes
    · refine pairwise_cons.mpr ⟨?_,pairwise_cons.mpr ⟨?_,h.ordered⟩⟩
      · intro w _ hyes
        rw [hcaret] at hyes
        cases hyes
      · intro w hw _
        obtain ⟨p,q,hsub,hp,hq⟩ := h.planned _ hmem rfl w hw
        exact ⟨p,q,hsub,hp,hq⟩
    · exact fun barrier hbarrier => absurd hbarrier (by simp [plannedEntries])
    · simp
  | kept hbatch hidle => exact h.frame rfl rfl
  | nothing hbatch => exact h

theorem take_fenced (hs : Sound i) (h : Fenced arrived i) : Fenced arrived (i.take marks).1 :=
  takes_fenced (filled_sound hs) (filled_fenced hs h) (take_takes i marks)

end Take

variable {op : Op}

theorem on_sound {i : Intake} (harrives : op.arrives=true) (hs : Sound i) : Sound (op.on i) := by
  refine step_sound hs ?_
  rintro entry rfl
  exact harrives

theorem on_fenced {arrived : List Entry} {i : Intake} (harrives : op.arrives=true)
    (hproper : ∀ entry∈op.pushed?, entry.proper=true) (hs : Sound i) (h : Fenced arrived i) :
    Fenced (arrived++op.pushed?.toList) (op.on i) := by
  cases op with
  | push entry marks => exact push_fenced hs (hproper entry rfl) h
  | next marks => cases harrives
  | cancel id =>
    change Fenced (arrived++[]) (i.cancel id).1
    rw [cancel_eq]
    exact (h.append []).filter _ _
  | whenIdle entry | setGap gap => exact (h.append []).frame rfl rfl
  | takeIdle => cases harrives
  | close =>
    exact (h.append []).restrict (nil_sublist _) (forall_mem_nil _) (forall_mem_nil _)

theorem Acts.fenced {arrived pushed : List Entry} {i i' : Intake} (h : Acts pushed i i')
    (hproper : ∀ entry∈pushed, entry.proper=true) (hs : Sound i) (hi : Fenced arrived i) :
    Sound i' ∧ Fenced (arrived++pushed) i' := by
  refine h.induct (P := fun done j => Sound j ∧ Fenced (arrived++done) j)
    ⟨hs,by rwa [append_nil]⟩ ?_
  intro op done j harrives hmem hj
  have hown : ∀ entry∈op.pushed?, entry.proper=true := fun entry hentry =>
    hproper entry (hmem entry hentry)
  rw [← append_assoc]
  exact ⟨on_sound harrives hj.1,on_fenced harrives hown hj.1 hj.2⟩

section Rounds

def Entry.isRound (round : Nat) (entry : Entry) : Bool :=
  match entry.item with
  | .barrier (.round asked) _ => asked=round
  | _ => false

def asking (round : Nat) (entries : List Entry) : Nat := entries.countP (Entry.isRound round)

variable {round : Nat} {i i' : Intake}

theorem asking_append (xs ys : List Entry) :
    asking round (xs++ys)=asking round xs+asking round ys := countP_append

theorem isRound_iff {entry : Entry} : entry.isRound round=true ↔
    ∃ behindNoted, entry.item=.barrier (.round round) behindNoted := by
  unfold Entry.isRound
  split
  next asked behindNoted hitem =>
    rw [hitem]
    simp
  next hnot =>
    refine ⟨fun h => (by cases h),?_⟩
    rintro ⟨behindNoted,hitem⟩
    exact absurd hitem (hnot _ _)

theorem asking_free {xs : List Entry} (h : ∀ entry∈xs, entry.item.isBarrier=false) :
    asking round xs=0 := by
  refine countP_eq_zero.mpr fun entry hentry hyes => ?_
  obtain ⟨behindNoted,hitem⟩ := isRound_iff.mp hyes
  have hnot := h entry hentry
  rw [hitem] at hnot
  cases hnot

theorem isRound_asPushed (entry : Entry) : entry.asPushed.isRound round=entry.isRound round := by
  obtain ⟨item,trace,observedAtUs,front⟩ := entry
  rcases item with _ | _ | _ | _ | _ | _ | ⟨asker,behindNoted⟩ | _ | _
  case barrier => cases asker <;> rfl
  all_goals rfl

theorem Accounts.asking_le {added handed : List Entry}
    (h : Accounts i op i' added handed) (round : Nat) :
    asking round i'.entries+asking round handed≤asking round i.entries+asking round added := by
  obtain ⟨lost,hperm,_⟩ := h.perm
  have hcount := hperm.countP_eq (Entry.isRound round)
  have hsame : ∀ xs : List Entry, (xs.map Entry.asPushed).countP (Entry.isRound round) =
      asking round xs := by
    intro xs
    rw [countP_map]
    exact congrArg (xs.countP ·) (funext fun entry => isRound_asPushed entry)
  rw [hsame,hsame,asking_append,asking_append,asking_append] at hcount
  omega

theorem on_asking (harrives : op.arrives=true)
    (hproper : ∀ entry∈op.pushed?, entry.proper=true) (hs : Sound i) (round : Nat) :
    asking round (op.on i).entries≤asking round i.entries+asking round op.pushed?.toList := by
  cases op with
  | push entry marks =>
    have haccounts : Accounts i (.push entry marks) _ _ _ := push_accounts hs (hproper entry rfl)
    have hle := haccounts.asking_le round
    have hadded : asking round [i.asQueued entry]≤asking round [entry] := by
      cases hyes : (i.asQueued entry).item.isBarrier with
      | true => rw [asQueued_barrier i entry hyes]
      | false =>
        rw [asking_free (by simpa using hyes)]
        exact zero_le _
    change asking round (i.push entry marks).1.entries≤_+asking round [entry]
    omega
  | next marks => cases harrives
  | cancel id =>
    have hle := (cancel_accounts hs id).asking_le round
    exact le_trans (le_add_right _ _) hle
  | whenIdle entry | setGap gap => exact le_add_right _ _
  | takeIdle => cases harrives
  | close => exact zero_le _

theorem Acts.asking_le {pushed : List Entry} (h : Acts pushed i i')
    (hproper : ∀ entry∈pushed, entry.proper=true) (hs : Sound i) (round : Nat) :
    asking round i'.entries≤asking round i.entries+asking round pushed := by
  refine (h.induct (P := fun done j => Sound j ∧
    asking round j.entries≤asking round i.entries+asking round done)
    ⟨hs,le_add_right _ _⟩ ?_).2
  intro op done j harrives hmem hj
  have hown : ∀ entry∈op.pushed?, entry.proper=true := fun entry hentry =>
    hproper entry (hmem entry hentry)
  have hone := on_asking harrives hown hj.1 round
  rw [asking_append]
  exact ⟨on_sound harrives hj.1,by omega⟩

theorem take_asking (hs : Sound i) (marks : Marks) (round : Nat) :
    asking round (i.take marks).1.entries+asking round (i.take marks).2 ≤
      asking round i.entries := by
  have haccounts : Accounts i (.next marks) _ _ _ := take_accounts hs
  have hle := haccounts.asking_le round
  have hnone : asking round (if (i.take marks).1.idle=none then i.idle.toList else [])=0 := by
    split
    · exact asking_free fun entry hentry =>
        not_barrier_of_noted (hs.kept entry (Option.mem_toList.mp hentry))
    · rfl
  omega

end Rounds

section Traces

def Intake.traces (i : Intake) : List TraceId :=
  (i.entries.filter fun entry => !entry.item.isNotedCaret).map (·.trace)

variable {i i' : Intake} {trace : TraceId}

theorem mem_traces : trace∈i.traces ↔
    ∃ entry∈i.entries, entry.item.isNotedCaret=false ∧ entry.trace=trace := by
  simp only [traces,mem_map,mem_filter,Bool.not_eq_true',and_assoc]

theorem traces_of_entries (h : ∀ entry∈i'.entries, entry∈i.entries) (hmem : trace∈i'.traces) :
    trace∈i.traces := by
  obtain ⟨entry,hentry,hrest⟩ := mem_traces.mp hmem
  exact mem_traces.mpr ⟨entry,h entry hentry,hrest⟩

theorem mem_entries : ∀ {entry : Entry}, entry∈i.entries ↔
    (∃ w∈i.waiting, w.entry=entry) ∨ ∃ p∈i.batch, entry∈p.entries := by
  simp [entries]

theorem on_traces (harrives : op.arrives=true) (h : trace∈(op.on i).traces) :
    trace∈i.traces ∨ ∃ entry∈op.pushed?, entry.trace=trace := by
  cases op with
  | push entry marks =>
    change trace∈(i.push entry marks).1.traces at h
    rcases i.push_cases entry marks with ⟨_,heq⟩ | ⟨_,⟨left,_,_,_,heq⟩ | ⟨_,_,heq⟩⟩
    · rw [heq] at h
      exact .inl h
    · rw [heq] at h
      refine .inl (traces_of_entries (fun other hother => ?_) h)
      rw [mem_entries] at hother ⊢
      refine hother.imp_left ?_
      rintro ⟨w,hw,rfl⟩
      exact ⟨w,mem_of_mem_filter hw,rfl⟩
    rw [heq] at h
    obtain ⟨other,hother,hnot,htrace⟩ := mem_traces.mp h
    rcases mem_entries.mp hother with ⟨w,hw,rfl⟩ | hbatch
    · rcases mem_requeued hw with hw | rfl
      · exact .inl (mem_traces.mpr ⟨w.entry,mem_entries_of_waiting hw,hnot,htrace⟩)
      · exact .inr ⟨entry,rfl,(i.asQueued_trace entry).symm.trans htrace⟩
    · exact .inl (mem_traces.mpr ⟨other,mem_entries.mpr (.inr hbatch),hnot,htrace⟩)
  | next marks => cases harrives
  | cancel id =>
    refine .inl (traces_of_entries (fun other hother => ?_) h)
    change other∈(i.cancel id).1.entries at hother
    rw [cancel_eq,mem_entries] at hother
    rw [mem_entries]
    rcases hother with ⟨w,hw,rfl⟩ | ⟨p,hp,hother⟩
    · exact .inl ⟨w,mem_of_mem_filter hw,rfl⟩
    · exact .inr ⟨p,mem_of_mem_filter hp,hother⟩
  | whenIdle entry => exact .inl h
  | takeIdle => cases harrives
  | setGap gap => exact .inl h
  | close => cases h

theorem Acts.traces {pushed : List Entry} (h : Acts pushed i i') (hmem : trace∈i'.traces) :
    trace∈i.traces ∨ ∃ entry∈pushed, entry.trace=trace := by
  refine h.induct (P := fun done j => trace∈j.traces →
    trace∈i.traces ∨ ∃ entry∈done, entry.trace=trace) .inl ?_ hmem
  intro op done j harrives _ hj htrace
  rcases on_traces harrives htrace with hold | ⟨entry,hentry,rfl⟩
  · refine (hj hold).imp_right ?_
    rintro ⟨entry,hentry,htrace⟩
    exact ⟨entry,mem_append_left _ hentry,htrace⟩
  · exact .inr ⟨entry,mem_append_right _ (Option.mem_toList.mpr hentry),rfl⟩

theorem filled_entries (marks : Marks) {entry : Entry} (h : entry∈(i.filled marks).entries) :
    entry∈i.entries := by
  rcases i.filled_cases marks with heq | ⟨_,_,heq⟩ <;> rw [heq] at h
  · exact h
  rw [mem_entries] at h ⊢
  rcases h with ⟨w,hw,rfl⟩ | ⟨p,hp,hentry⟩
  · exact .inl ⟨w,mem_of_mem_drop hw,rfl⟩
  · obtain ⟨w,hw,rfl⟩ := mem_plan hp hentry
    exact .inl ⟨w,mem_of_mem_take (mem_taken.mp hw),rfl⟩

theorem take_traces (hs : Sound i) (marks : Marks) (h : trace∈(i.take marks).1.traces) :
    trace∈i.traces := by
  obtain ⟨entry,hentry,hnot,rfl⟩ := mem_traces.mp h
  have haccounts : Accounts i (.next marks) _ _ _ := take_accounts hs
  obtain ⟨lost,hperm,_⟩ := haccounts.perm
  have hmem := hperm.mem_iff.mpr (mem_map_of_mem
    (mem_append_left lost (mem_append_left _ hentry)))
  obtain ⟨old,hold,hsame⟩ := mem_map.mp hmem
  have htrace := congrArg Entry.trace hsame
  have hcaret := congrArg (·.item.isNotedCaret) hsame
  simp only [(asPushed_frame _).1,(asPushed_frame _).2,hnot] at htrace hcaret
  rcases mem_append.mp hold with hold | hold
  · exact mem_traces.mpr ⟨old,hold,hcaret,htrace⟩
  split at hold
  · rw [hs.kept old (Option.mem_toList.mp hold)] at hcaret
    cases hcaret
  · cases hold

end Traces

end Verbatim.Outpost
