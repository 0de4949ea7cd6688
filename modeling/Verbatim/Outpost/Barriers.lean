import Verbatim.Outpost.Dividing

namespace Verbatim.Outpost

open Framework List Intake Ledger Prod

abbrev Places := Entry → Option Nat

def NotAfter (places : Places) (a b : Entry) : Prop :=
  ∀ p, places a.asPushed=some p → ∀ q, places b.asPushed=some q → p≤q

def markersOf (places : Places) (waiting : List Waiting) : List (Nat × Option Nat) :=
  waiting.filterMap fun w => w.marker.map fun marker => (marker,places w.entry.asPushed)

def Intake.plannedEntries (s : Intake) : List Entry := s.batch.flatMap Planned.entries

/-- Nothing behind a marker or an idle query goes ahead of it, and each key waits once between
idle queries. -/
structure Divided (places : Places) (opened : List (Nat × Nat)) (handed : List Entry)
    (s : Intake) : Prop where
  ordered : s.waiting.Pairwise (fun a b => a.divides=true ∨ b.divides=true →
    NotAfter places a.entry b.entry)
  ahead : ∀ entry∈s.plannedEntries++handed, ∀ w∈s.waiting, w.divides=true →
    NotAfter places entry w.entry
  fenced : ∀ barrier∈s.plannedEntries, barrier.item.isBarrier=true →
    (∀ w∈s.waiting, NotAfter places barrier w.entry) ∧
      ∀ entry∈s.plannedEntries++handed, NotAfter places entry barrier
  last : ∀ p∈s.batch.dropLast, ∀ entry∈p.entries, entry.item.isBarrier=false
  opened : markersOf places s.waiting=opened.map (fun marker => (marker.1,some marker.2))
  placed : ∀ entry∈s.entries++handed, (∃ p, places entry.asPushed=some p) ∨
    entry.item.isNotedCaret=true
  keys : (keysOf 0 s.waiting).Nodup

variable {places places' : Places} {opened : List (Nat × Nat)} {handed : List Entry} {s : Intake}
  {a b entry : Entry} {planned : Planned} {batch : List Planned}

theorem NotAfter.refl (entry : Entry) : NotAfter places entry entry := by
  intro p hp q hq
  rw [hp] at hq
  exact (Option.some.inj hq).le

theorem NotAfter.of_unplaced (h : places a.asPushed=none ∨
    places b.asPushed=none) : NotAfter places a b := by
  intro p hp q hq
  rcases h with h | h
  · rw [h] at hp
    cases hp
  · rw [h] at hq
    cases hq

theorem NotAfter.congr (ha : places' a.asPushed=places a.asPushed)
    (hb : places' b.asPushed=places b.asPushed) (h : NotAfter places a b) :
    NotAfter places' a b := by
  intro p hp q hq
  exact h p (ha ▸ hp) q (hb ▸ hq)

theorem mem_entries_of_waiting {w : Waiting} (hw : w∈s.waiting) : w.entry∈s.entries :=
  mem_append_left _ (mem_map_of_mem hw)

theorem mem_entries_of_planned (h : entry∈s.plannedEntries) : entry∈s.entries :=
  mem_append_right _ h

theorem planned_subset (h : entry∈s.plannedEntries++handed) : entry∈s.entries++handed :=
  mem_append.mpr ((mem_append.mp h).imp_left mem_entries_of_planned)

section

variable (h : Divided places opened handed s)

include h

theorem Divided.congr
    (hsame : ∀ entry∈s.entries++handed, places' entry.asPushed=places entry.asPushed) :
    Divided places' opened handed s := by
  have hwaiting : ∀ w∈s.waiting, places' w.entry.asPushed=places w.entry.asPushed :=
    fun w hw => hsame _ (mem_append_left _ (mem_entries_of_waiting hw))
  have hplanned : ∀ entry∈s.plannedEntries++handed,places' entry.asPushed=places entry.asPushed :=
    fun entry hentry => hsame entry (planned_subset hentry)
  refine ⟨?_,?_,?_,h.last,?_,?_,h.keys⟩
  · refine h.ordered.imp_of_mem ?_
    intro a b ha hb hab hdivides
    exact (hab hdivides).congr (hwaiting a ha) (hwaiting b hb)
  · intro entry hentry w hw hdivides
    exact (h.ahead entry hentry w hw hdivides).congr (hplanned entry hentry) (hwaiting w hw)
  · intro barrier hmem hbarrier
    obtain ⟨hbehind,hbefore⟩ := h.fenced barrier hmem hbarrier
    have hown := hplanned barrier (mem_append_left _ hmem)
    exact ⟨fun w hw => (hbehind w hw).congr hown (hwaiting w hw),
      fun entry hentry => (hbefore entry hentry).congr (hplanned entry hentry) hown⟩
  · rw [← h.opened]
    refine filterMap_congr ?_
    intro w hw
    rw [hwaiting w hw]
  · intro entry hentry
    rw [hsame entry hentry]
    exact h.placed entry hentry

variable {opened' : List (Nat × Nat)}

theorem Divided.restrict {s' : Intake} {handed' : List Entry}
    (hwaiting : s'.waiting.Sublist s.waiting)
    (hplanned : ∀ entry∈s'.plannedEntries, entry∈s.plannedEntries)
    (hhanded : ∀ entry∈handed', entry∈s.plannedEntries++handed)
    (hlast : ∀ p∈s'.batch.dropLast, p∈s.batch.dropLast)
    (hopened : markersOf places s'.waiting=opened'.map fun marker => (marker.1,some marker.2))
    (hkeys : (keysOf 0 s'.waiting).Nodup) : Divided places opened' handed' s' := by
  have hout : ∀ entry∈s'.plannedEntries++handed', entry∈s.plannedEntries++handed :=
    forall_mem_append.2 ⟨fun entry hentry => mem_append_left _ (hplanned entry hentry),hhanded⟩
  refine ⟨h.ordered.sublist hwaiting,?_,?_,fun p hp => h.last p (hlast p hp),hopened,?_,hkeys⟩
  · exact fun entry hentry w hw => h.ahead entry (hout entry hentry) w (hwaiting.subset hw)
  · intro barrier hbarrier hyes
    obtain ⟨hbehind,hbefore⟩ := h.fenced barrier (hplanned barrier hbarrier) hyes
    exact ⟨fun w hw => hbehind w (hwaiting.subset hw),
      fun entry hentry => hbefore entry (hout entry hentry)⟩
  · intro entry hentry
    refine h.placed entry ?_
    rw [entries,append_assoc] at hentry ⊢
    exact mem_append.mpr ((mem_append.mp hentry).imp
      (fun hentry => (hwaiting.map _).subset hentry) (hout entry))

/-- One waits more: it goes behind what is ahead of every idle query, and of it if it divides. -/
theorem Divided.revise {waiting : List Waiting} {new : Waiting} (gap : GapRecord)
    (hmem : ∀ w∈waiting, w=new ∨ w∈s.waiting)
    (hordered : waiting.Pairwise fun a b => a.divides=true ∨ b.divides=true →
      NotAfter places a.entry b.entry)
    (hahead : new.divides=true → ∀ entry∈s.plannedEntries++handed,NotAfter places entry new.entry)
    (hfence : ∀ barrier∈s.plannedEntries, barrier.item.isBarrier=true →
      NotAfter places barrier new.entry)
    (hplaced : ∃ p, places new.entry.asPushed=some p)
    (hopened : markersOf places waiting=opened'.map fun marker => (marker.1,some marker.2))
    (hkeys : (keysOf 0 waiting).Nodup) :
    Divided places opened' handed {s with gap, waiting} := by
  refine ⟨hordered,?_,?_,h.last,hopened,?_,hkeys⟩
  · intro entry hentry w hw hdivides
    rcases hmem w hw with rfl | hw
    · exact hahead hdivides entry hentry
    · exact h.ahead entry hentry w hw hdivides
  · intro barrier hbarrier hyes
    obtain ⟨hbehind,hbefore⟩ := h.fenced barrier hbarrier hyes
    refine ⟨fun w hw => ?_,hbefore⟩
    rcases hmem w hw with rfl | hw
    · exact hfence barrier hbarrier hyes
    · exact hbehind w hw
  · intro entry hentry
    rw [entries,append_assoc] at hentry
    rcases mem_append.mp hentry with hentry | hentry
    · obtain ⟨w,hw,rfl⟩ := mem_map.mp hentry
      rcases hmem w hw with rfl | hw
      · exact .inl hplaced
      · exact h.placed _ (mem_append_left _ (mem_entries_of_waiting hw))
    · exact h.placed entry (planned_subset hentry)

theorem Divided.frame {s' : Intake} (hwaiting : s'.waiting=s.waiting) (hbatch : s'.batch=s.batch) :
    Divided places opened handed s' := by
  refine h.restrict (hwaiting ▸ .refl _) ?_ (fun _ => mem_append_right _) (hbatch ▸ fun _ => id)
    (hwaiting ▸ h.opened) (hwaiting ▸ h.keys)
  rw [plannedEntries,hbatch]
  exact fun _ => id

end

/-- A planned idle query ends its batch. -/
theorem last_of_barrier
    (h : ∀ p∈(planned::batch).dropLast, ∀ entry∈p.entries, entry.item.isBarrier=false)
    (hmem : entry∈planned.entries) (hbarrier : entry.item.isBarrier=true) : batch=[] := by
  cases batch with
  | nil => rfl
  | cons q batch =>
    rw [h planned mem_cons_self entry hmem] at hbarrier
    cases hbarrier

theorem mem_planned (hbatch : s.batch=planned::batch) (h : entry∈planned.entries) :
    entry∈s.plannedEntries := by
  rw [plannedEntries,hbatch]
  exact mem_append_left _ h

theorem mem_putBack {noted query entry : Entry} (h : entry∈({s with
    waiting := [noted,query].map plainWaiting++s.waiting, batch := [], idle := none} :
      Intake).entries) : entry=noted ∨ entry=query ∨ ∃ w∈s.waiting, w.entry=entry := by
  simpa [entries,plainWaiting,eq_comm] using h

theorem not_barrier_of_noted {item : Item} (h : item.isNotedCaret=true) : item.isBarrier=false := by
  cases item <;> first | rfl | cases h

section Edit

variable {before after before' after' lost : List Waiting}

theorem markersOf_append (places : Places) (xs ys : List Waiting) :
    markersOf places (xs++ys)=markersOf places xs++markersOf places ys :=
  filterMap_append

theorem markersOf_free {xs : List Waiting} (h : ∀ w∈xs, w.marker=none) :
    markersOf places xs=[] := by
  rw [markersOf,filterMap_eq_nil_iff]
  intro w hw
  rw [h w hw]
  rfl

theorem markersOf_cons_free {w : Waiting} (h : w.marker=none)
    (xs : List Waiting) : markersOf places (w::xs)=markersOf places xs := by
  rw [markersOf,filterMap_cons,h]
  rfl

theorem edited_markers (places : Places) (h : Edited before after before' after' lost) :
    markersOf places before'=markersOf places before ∧
      markersOf places after'=markersOf places after := by
  induction h with
  | refl => exact ⟨rfl,rfl⟩
  | behind h hw hnone ih | ahead h hw hnone ih =>
    rw [markersOf_append,markersOf_cons_free (unmarked_of_not_divides hw)] at ih
    rw [markersOf_append]
    exact ih
  | move first h hnone ih =>
    have hfree := fun w hw => unmarked_of_not_divides (hnone w hw)
    have hpart : ∀ keep : Waiting → Bool, markersOf places (filter keep _)=[] :=
      fun keep => markersOf_free fun w hw => hfree w (mem_of_mem_filter hw)
    rw [markersOf_append,markersOf_free hfree,nil_append] at ih
    rw [markersOf_append,markersOf_append,hpart,hpart,append_nil,nil_append]
    exact ih

theorem edited_ordered {R : Waiting → Waiting → Prop}
    (hfree : ∀ a b, a.divides=false → b.divides=false → R a b)
    (h : Edited before after before' after' lost) (hordered : (before++after).Pairwise R) :
    (before'++after').Pairwise R := by
  induction h with
  | refl => exact hordered
  | behind h hw hnone ih =>
    refine ih.sublist (List.Sublist.append_right ?_ _)
    exact List.Sublist.append_left (sublist_cons_self _ _) _
  | ahead h hw hnone ih =>
    refine ih.sublist (List.Sublist.append_left ?_ _)
    exact List.Sublist.append_left (sublist_cons_self _ _) _
  | @move behind segment rest lost first h hnone ih =>
    obtain ⟨hbehind,hright,hcross⟩ := pairwise_append.mp ih
    obtain ⟨hsegment,hrest,hacross⟩ := pairwise_append.mp hright
    have hmem : ∀ keep : Waiting → Bool, ∀ w∈segment.filter keep, w∈segment :=
      fun keep w hw => mem_of_mem_filter hw
    refine pairwise_append.mpr ⟨pairwise_append.mpr ⟨hbehind,
      hsegment.sublist filter_sublist,?_⟩,pairwise_append.mpr
      ⟨hsegment.sublist filter_sublist,hrest,?_⟩,?_⟩
    · exact fun a ha b hb => hcross a ha b (mem_append_left _ (hmem _ b hb))
    · exact fun a ha b hb => hacross a (hmem _ a ha) b hb
    intro a ha b hb
    rcases mem_append.mp ha with ha | ha
    · rcases mem_append.mp hb with hb | hb
      · exact hcross a ha b (mem_append_left _ (hmem _ b hb))
      · exact hcross a ha b (mem_append_right _ hb)
    · rcases mem_append.mp hb with hb | hb
      · exact hfree a b (hnone a (hmem _ a ha)) (hnone b (hmem _ b hb))
      · exact hacross a (hmem _ a ha) b hb

end Edit

section Next

variable {marks : Marks}

theorem isEvent_of_barrier {w : Waiting} (h : w.isBarrier=true) : w.isEvent=false := by
  unfold Waiting.isBarrier at h
  unfold Waiting.isEvent
  cases hitem : w.entry.item <;> rw [hitem] at h <;> first | rfl | cases h

theorem plan_barriers (hs : Sound s) :
    (∀ p∈(plan (s.taken marks) marks.focused).dropLast, ∀ entry∈p.entries,
      entry.item.isBarrier=false) ∧
    ∀ p∈plan (s.taken marks) marks.focused, ∀ entry∈p.entries, entry.item.isBarrier=true →
      ∃ free barrier, s.waiting.take (ready s.waiting)=free++[barrier] ∧
        barrier.isBarrier=true ∧ barrier.entry=entry := by
  obtain ⟨free,rest,hfree,hcases⟩ := ready_split s.waiting
  rcases or_assoc.mpr hcases with hnone | ⟨barrier,_,hbarrier,hsplit,htake⟩
  · have htake : s.waiting.take (ready s.waiting)=free := by
      rcases hnone with ⟨_,_,htake⟩ | ⟨_,_,_,htake⟩ <;> exact htake
    have hplain : ∀ p∈plan (s.taken marks) marks.focused, ∀ entry∈p.entries,
        entry.item.isBarrier=false := by
      intro p hp entry hentry
      obtain ⟨w,hw,rfl⟩ := mem_plan hp hentry
      exact not_barrier_of_not_divides (hfree w (htake ▸ mem_taken.mp hw))
    exact ⟨fun p hp => hplain p ((dropLast_sublist _).subset hp),fun p hp entry hentry hyes =>
      absurd ((hplain p hp entry hentry).symm.trans hyes) Bool.false_ne_true⟩
  have hformed := hs.formed barrier (by rw [hsplit]; simp)
  obtain ⟨hkey,hcategory,_⟩ := hformed.of_barrier hbarrier
  obtain ⟨init,htaken,hperm⟩ := caretAfterUpdate_concat free marks.focused marks.terminal
    (isEvent_of_barrier hbarrier)
  have htaken : s.taken marks=init++[barrier] := by
    rw [taken,htake]
    exact htaken
  obtain ⟨planned,hplan,hinit⟩ := plan_concat init marks.focused hbarrier hcategory hkey
  rw [htaken,hplan,dropLast_concat]
  have hfirst : ∀ p∈planned, ∀ entry∈p.entries, entry.item.isBarrier=false := by
    intro p hp entry hentry
    obtain ⟨w,hw,rfl⟩ := hinit p hp entry hentry
    exact not_barrier_of_not_divides (hfree w (hperm.mem_iff.mp hw))
  refine ⟨hfirst,?_⟩
  intro p hp entry hentry hyes
  rcases mem_append.mp hp with hp | hp
  · rw [hfirst p hp entry hentry] at hyes
    cases hyes
  obtain rfl := mem_singleton.mp hp
  obtain rfl := mem_singleton.mp hentry
  exact ⟨free,barrier,htake,hbarrier,rfl⟩

theorem filled_divided (hs : Sound s) (h : Divided places opened handed s) :
    Divided places opened handed (s.filled marks) := by
  rcases s.filled_cases marks with heq | ⟨hbatch,_,heq⟩ <;> rw [heq]
  · exact h
  have hwaiting := take_append_drop (ready s.waiting) s.waiting
  have hordered := h.ordered
  rw [← hwaiting] at hordered
  obtain ⟨_,hrest,hacross⟩ := pairwise_append.mp hordered
  have hplanned : ∀ entry∈(plan (s.taken marks) marks.focused).flatMap Planned.entries,
      ∃ w∈s.waiting.take (ready s.waiting), w.entry=entry := by
    intro entry hentry
    obtain ⟨p,hp,hentry⟩ := mem_flatMap.mp hentry
    obtain ⟨w,hw,rfl⟩ := mem_plan hp hentry
    exact ⟨w,mem_taken.mp hw,rfl⟩
  have hahead : ∀ entry∈handed, ∀ w∈s.waiting, w.divides=true →
      NotAfter places entry w.entry := fun entry hentry =>
    h.ahead entry (mem_append_right _ hentry)
  refine ⟨hrest,?_,?_,(plan_barriers hs).1,?_,?_,?_⟩
  · intro entry hentry w hw hdivides
    rcases mem_append.mp hentry with hentry | hentry
    · obtain ⟨x,hx,rfl⟩ := hplanned entry hentry
      exact hacross x hx w hw (.inr hdivides)
    · exact hahead entry hentry w (mem_of_mem_drop hw) hdivides
  · intro entry hentry hbarrier
    obtain ⟨p,hp,hmem⟩ := mem_flatMap.mp hentry
    obtain ⟨free,barrier,htake,hyes,rfl⟩ := (plan_barriers hs).2 p hp entry hmem hbarrier
    have hdivides : barrier.divides=true := by simp [Waiting.divides,hyes]
    refine ⟨fun w hw => hacross barrier (by rw [htake]; simp) w hw (.inl hdivides),?_⟩
    intro other hother
    rcases mem_append.mp hother with hother | hother
    · obtain ⟨x,hx,rfl⟩ := hplanned other hother
      have htaken := (pairwise_append.mp hordered).1
      rw [htake] at hx htaken
      rcases mem_append.mp hx with hx | hx
      · exact (pairwise_append.mp htaken).2.2 x hx barrier (by simp) (.inr hdivides)
      · rw [mem_singleton.mp hx]
        exact NotAfter.refl _
    · refine hahead other hother barrier ?_ hdivides
      refine mem_of_mem_take (i := ready s.waiting) ?_
      rw [htake]
      simp
  · have hopened := h.opened
    rw [← hwaiting,markersOf,filterMap_append] at hopened
    have hnone : markersOf places (s.waiting.take (ready s.waiting))=[] :=
      markersOf_free fun w hw => ready_unmarked hw
    rw [← hopened]
    change _=markersOf places _++_
    rw [hnone]
    rfl
  · intro entry hentry
    refine h.placed entry ?_
    rcases mem_append.mp hentry with hentry | hentry
    · refine mem_append_left _ (mem_append_left _ ?_)
      rcases mem_append.mp hentry with hentry | hentry
      · obtain ⟨w,hw,rfl⟩ := mem_map.mp hentry
        exact mem_map_of_mem (mem_of_mem_drop hw)
      · obtain ⟨w,hw,rfl⟩ := hplanned entry hentry
        exact mem_map_of_mem (mem_of_mem_take hw)
    · exact mem_append_right _ hentry
  · have hkeys := h.keys
    rw [← hwaiting,keysOf_append] at hkeys
    exact (keysOf_nodup_iff _ _).mp (nodup_append.mp hkeys).2.1

variable {out : List Entry}

theorem takes_divided {t t' : Intake} (hs : Sound t)
    (hnoted : ∀ entry : Entry, entry.item.isNotedCaret=true → places entry.asPushed=none)
    (h : Divided places opened handed t) (htakes : Takes t t' out) :
    Divided places opened (handed++out) t' := by
  cases htakes with
  | @handed planned batch hbatch =>
    have hentries : t.plannedEntries=planned.entries++batch.flatMap Planned.entries := by
      rw [plannedEntries,hbatch]
      rfl
    refine h.restrict (.refl _) ?_ ?_ ?_ h.opened h.keys
    · rw [hentries]
      exact fun _ => mem_append_right _
    · intro entry hentry
      rw [hentries]
      simp only [mem_append] at hentry ⊢
      tauto
    · intro p hp
      rw [hbatch]
      cases batch with
      | nil => cases hp
      | cons q batch => exact mem_cons_of_mem _ hp
  | @putBack asker trace observedAtUs front batch noted hbatch hidle =>
    have hmem : (⟨.barrier asker false,trace,observedAtUs,front⟩ : Entry)∈t.plannedEntries :=
      mem_planned hbatch mem_cons_self
    obtain ⟨hbehind,hbefore⟩ := h.fenced _ hmem rfl
    have hcaret := hs.kept noted (by rw [hidle]; rfl)
    have hunplaced := hnoted noted hcaret
    obtain rfl := last_of_barrier (hbatch ▸ h.last) mem_cons_self rfl
    have hopen := open_of_batch hs hbatch
    rw [pushAhead_eq (t := {t with batch := [], idle := none}) hopen,append_nil]
    have hkey : (plainWaiting noted).key=none := by
      unfold plainWaiting
      revert hcaret
      cases noted.item <;> simp [Item.isNotedCaret,classify]
    constructor
    · refine pairwise_cons.mpr ⟨?_,pairwise_cons.mpr ⟨?_,h.ordered⟩⟩
      · exact fun w _ _ => NotAfter.of_unplaced (.inl hunplaced)
      · exact fun w hw _ => hbehind w hw
    · intro entry hentry w hw hdivides
      have hentry : entry∈handed := by simpa [plannedEntries] using hentry
      rcases mem_cons.mp hw with rfl | hw
      · exact NotAfter.of_unplaced (.inr hunplaced)
      rcases mem_cons.mp hw with rfl | hw
      · exact hbefore entry (mem_append_right _ hentry)
      · exact h.ahead entry (mem_append_right _ hentry) w hw hdivides
    · exact fun barrier hbarrier => absurd hbarrier (by simp [plannedEntries])
    · simp
    · exact h.opened
    · intro entry hentry
      rcases mem_append.mp hentry with hentry | hentry
      · rcases mem_putBack hentry with rfl | rfl | ⟨w,hw,rfl⟩
        · exact .inr hcaret
        · rcases h.placed _ (mem_append_left _ (mem_entries_of_planned hmem)) with hp | hp
          · exact .inl hp
          · cases hp
        · exact h.placed _ (mem_append_left _ (mem_entries_of_waiting hw))
      · exact h.placed entry (mem_append_right _ hentry)
    · change (keysOf 0 (plainWaiting noted::(_::t.waiting))).Nodup
      rw [keysOf_cons_free (not_barrier_of_noted hcaret),hkey,keysOf]
      exact (keysOf_nodup_iff _ _).mpr h.keys
  | @kept noted hbatch hidle =>
    have hcaret := hs.kept noted (by rw [hidle]; rfl)
    have hunplaced := hnoted noted hcaret
    have hnone : t.plannedEntries=[] := by rw [plannedEntries,hbatch]; rfl
    refine ⟨h.ordered,?_,?_,h.last,h.opened,?_,h.keys⟩
    · rw [← append_assoc]
      exact forall_mem_append.2 ⟨h.ahead,forall_mem_singleton.2 fun w _ _ =>
        NotAfter.of_unplaced (.inl hunplaced)⟩
    · intro barrier hbarrier
      change barrier∈t.plannedEntries at hbarrier
      rw [hnone] at hbarrier
      cases hbarrier
    · rw [← append_assoc]
      exact forall_mem_append.2 ⟨h.placed,forall_mem_singleton.2 (.inr hcaret)⟩
  | nothing hbatch =>
    rw [append_nil]
    exact h

end Next

section Filter

theorem mem_dropLast_of_filter {keep : Planned → Bool} {p : Planned}
    (h : p∈(batch.filter keep).dropLast) : p∈batch.dropLast := by
  rcases eq_nil_or_concat batch with rfl | ⟨init,x,rfl⟩
  · cases h
  rw [concat_eq_append,filter_append] at h
  rw [concat_eq_append,dropLast_concat]
  cases hx : keep x with
  | true =>
    rw [filter_singleton,hx,cond_true,dropLast_concat] at h
    exact mem_of_mem_filter h
  | false =>
    rw [filter_singleton,hx,cond_false,append_nil] at h
    exact mem_of_mem_filter ((dropLast_sublist _).subset h)

theorem Divided.filter (h : Divided places opened handed s) {keep : Waiting → Bool}
    (keepPlanned : Planned → Bool)
    (hkeep : ∀ w∈s.waiting, keep w=false → w.isBarrier=false)
    (hopened : markersOf places (s.waiting.filter keep) =
      opened'.map fun marker => (marker.1,some marker.2)) :
    Divided places opened' handed
      {s with waiting := s.waiting.filter keep, batch := s.batch.filter keepPlanned} := by
  refine h.restrict filter_sublist ?_ (fun _ => mem_append_right _)
    (fun _ => mem_dropLast_of_filter) hopened ((keysOf_filter 0 hkeep).nodup h.keys)
  intro entry hentry
  obtain ⟨p,hp,hentry⟩ := mem_flatMap.mp hentry
  exact mem_flatMap.mpr ⟨p,mem_of_mem_filter hp,hentry⟩

theorem markersOf_filter {keep : Waiting → Bool} {waiting : List Waiting}
    (h : ∀ w∈waiting, keep w=false → w.marker=none) :
    markersOf places (waiting.filter keep)=markersOf places waiting := by
  induction waiting with
  | nil => rfl
  | cons w waiting ih =>
    have ih := ih fun x hx => h x (mem_cons_of_mem _ hx)
    unfold markersOf at ih ⊢
    rw [filter_cons]
    split
    · rw [filterMap_cons,filterMap_cons,ih]
    next hkeep =>
      rw [filterMap_cons,h w (by simp) (by simpa using hkeep),ih]
      rfl

theorem cancel_divided (hs : Sound s) (h : Divided places opened handed s) (id : RequestId) :
    Divided places opened handed (s.cancel id).1 := by
  rw [cancel_eq]
  have hquery : ∀ w∈s.waiting, (!isQuery id w.entry)=false → w.isBarrier=false ∧ w.marker=none := by
    intro w hw hyes
    obtain ⟨query,hitem⟩ := item_of_isQuery (by simpa using hyes)
    rw [(hs.formed w hw).marker]
    simp [Waiting.isBarrier,markerOf,hitem,Item.isBarrier]
  refine h.filter _ (fun w hw hyes => (hquery w hw hyes).1) ?_
  rw [markersOf_filter fun w hw hyes => (hquery w hw hyes).2]
  exact h.opened

end Filter

section Push

variable (opened)

def openedAfter (entry : Entry) (resolves : Option Nat) (number : Nat) : List (Nat × Nat) :=
  match entry.item with
  | .fact (.uiaFocusMarker marker) _ => opened++[(marker,number)]
  | .fact (.uiaFocusDropped marker _ _) _ => opened.filter fun open_ => open_.1≠marker
  | .fact .uiaFocusReadsEnded _ => []
  | _ => resolves.elim opened fun marker => opened.eraseP fun open_ => open_.1=marker

def placeOf (resolves : Option Nat) (number : Nat) : Nat :=
  (resolves.bind fun marker => opened.find? fun open_ => open_.1=marker).elim number Prod.snd

variable {opened} {marks : Marks}

theorem openedAfter_marker {marker : Nat} (h : markerOf entry=some marker) (resolves : Option Nat)
    (number : Nat) : openedAfter opened entry resolves number=opened++[(marker,number)] := by
  unfold markerOf at h
  split at h
  next hitem =>
    cases h
    simp only [openedAfter,hitem]
  · cases h

theorem openedAfter_other (h : markerOf entry=none)
    (hnone : s.resolvesWithoutRead entry=none) (resolves : Option Nat) (number : Nat) :
    openedAfter opened entry resolves number =
      resolves.elim opened fun marker => opened.eraseP fun open_ => open_.1=marker := by
  rcases entry with ⟨item,trace,observedAtUs,front⟩
  cases item with
  | fact fact stamp =>
    cases fact with
    | uiaFocusMarker marker => cases h
    | uiaFocusDropped marker focus noWindow | uiaFocusReadsEnded => cases hnone
    | _ => rfl
  | _ => rfl

theorem resolving_opened {left : Intake} (h : s.resolvesWithoutRead entry=some left)
    (hopened : markersOf places s.waiting=opened.map fun marker => (marker.1,some marker.2))
    (resolves : Option Nat) (number : Nat) :
    ∃ keep : Waiting → Bool, left={s with waiting := s.waiting.filter keep} ∧
      (∀ w, keep w=false → w.marker.isSome=true) ∧
      markersOf places (s.waiting.filter keep) =
        (openedAfter opened entry resolves number).map fun marker => (marker.1,some marker.2) := by
  unfold resolvesWithoutRead at h
  split at h
  next marker focus noWindow stamp hitem =>
    refine ⟨fun w => w.marker≠some marker,(Option.some.inj h).symm,?_,?_⟩
    · intro w hw
      have hw : w.marker=some marker := by simpa using hw
      rw [hw]
      rfl
    · have hfilter : markersOf places (s.waiting.filter fun w => w.marker≠some marker) =
          (markersOf places s.waiting).filter fun open_ => open_.1≠marker := by
        unfold markersOf
        rw [filterMap_filter,filter_filterMap]
        refine filterMap_congr ?_
        intro w _
        cases hw : w.marker with
        | none => simp
        | some other => by_cases hsame : other=marker <;> simp [hsame,Option.filter]
      rw [hfilter,hopened,filter_map]
      simp only [openedAfter,hitem]
      rfl
  next stamp hitem =>
    refine ⟨fun w => w.marker.isNone,(Option.some.inj h).symm,?_,?_⟩
    · intro w hw
      cases hmarker : w.marker <;> simp_all
    simp only [openedAfter,hitem]
    refine markersOf_free ?_
    intro w hw
    simpa using (mem_filter.mp hw).2
  · cases h

variable {new : Waiting} {item : Item} (gap : GapRecord) {number : Nat}

theorem unplaced_or_le (hb : places b.asPushed=some number)
    (ha : ∀ p, places a.asPushed=some p → p≤number) : NotAfter places a b := by
  intro p hp q hq
  rw [hb] at hq
  cases hq
  exact ha p hp

theorem divided_back {left lost : List Waiting} (h : Divided places opened handed s)
    (hnew : new.Formed) (hplace : places new.entry.asPushed=some number)
    (hmax : ∀ entry∈s.entries++handed, ∀ p, places entry.asPushed=some p → p≤number)
    (hreplaced : Replaced new.key item s.waiting [] left [] lost) :
    Divided places (opened++(new.marker.map (·,number)).toList) handed
      {s with gap, waiting := left++[new]} := by
  have hleft : ∀ w∈left, w∈s.waiting := fun w hw =>
    ((edited_subset hreplaced.edited).1 w hw).resolve_right (by simp)
  have hbehind : ∀ entry∈s.entries++handed, NotAfter places entry new.entry :=
    fun entry hentry => unplaced_or_le hplace (hmax entry hentry)
  refine h.revise gap ?_ ?_ (fun _ entry hentry => hbehind entry (planned_subset hentry))
    (fun barrier hbarrier _ => hbehind barrier
      (mem_append_left _ (mem_entries_of_planned hbarrier)))
    ⟨number,hplace⟩ ?_ ?_
  · exact forall_mem_append.2 ⟨fun w hw => .inr (hleft w hw),forall_mem_singleton.2 (.inl rfl)⟩
  · have hordered := edited_ordered (R := fun a b => a.divides=true ∨ b.divides=true →
      NotAfter places a.entry b.entry) (fun a b ha hb hdivides => by simp [ha,hb] at hdivides)
      hreplaced.edited (by simpa using h.ordered)
    rw [append_nil] at hordered
    refine pairwise_append.mpr ⟨hordered,pairwise_singleton _ _,?_⟩
    intro a ha b hb _
    rw [mem_singleton.mp hb]
    exact hbehind _ (mem_append_left _ (mem_entries_of_waiting (hleft a ha)))
  · rw [markersOf_append,(edited_markers places hreplaced.edited).1,h.opened,map_append]
    unfold markersOf
    rw [filterMap_cons,hplace]
    cases new.marker <;> rfl
  · refine replaced_keys [] hreplaced rfl ?_ (by simp) (by simp) (by simpa using h.keys)
    intro hbarrier
    exact ⟨(hnew.of_barrier hbarrier).1,rfl⟩

theorem divided_slot {before after before' after' lost : List Waiting} {marker : Waiting}
    {first rest : List (Nat × Nat)} {n place : Nat} (h : Divided places opened handed s)
    (hwaiting : s.waiting=before++marker::after) (hformed : ∀ w∈s.waiting, w.Formed)
    (hmarker : marker.marker=some n) (hnew : new.divides=false)
    (hplace : places new.entry.asPushed=some place)
    (hsame : places marker.entry.asPushed=some place) (hopened : opened=first++(n,place)::rest)
    (hfirst : markersOf places before=first.map fun marker => (marker.1,some marker.2))
    (hreplaced : Replaced new.key item before after before' after' lost) :
    Divided places (first++rest) handed {s with gap, waiting := before'++new::after'} := by
  obtain ⟨hbefore,hafter⟩ := edited_subset hreplaced.edited
  have hmem : ∀ w∈before'++new::after', w=new ∨ w∈s.waiting := by
    intro w hw
    rw [hwaiting]
    rcases mem_append.mp hw with hw | hw
    · rcases hbefore w hw with hw | ⟨hw,_⟩
      · exact .inr (mem_append_left _ hw)
      · exact .inr (mem_append_right _ (mem_cons_of_mem _ hw))
    · rcases mem_cons.mp hw with rfl | hw
      · exact .inl rfl
      · exact .inr (mem_append_right _ (mem_cons_of_mem _ (hafter w hw)))
  have hmarkerMem : marker∈s.waiting := by rw [hwaiting]; simp
  have hdivides : marker.divides=true := by simp [Waiting.divides,hmarker]
  obtain ⟨hkey,hfree⟩ := (hformed marker hmarkerMem).of_marker (by rw [hmarker]; rfl)
  have hnotAfter : ∀ a : Entry, NotAfter places a marker.entry → NotAfter places a new.entry := by
    intro a ha p hp q hq
    exact ha p hp q (by rw [hsame,← hplace]; exact hq)
  have hordered := h.ordered
  rw [hwaiting] at hordered
  obtain ⟨hleft,hright,hcross⟩ := pairwise_append.mp hordered
  obtain ⟨hbehind,hrest⟩ := pairwise_cons.mp hright
  refine h.revise gap hmem ?_ (fun hyes => absurd (hnew.symm.trans hyes) Bool.false_ne_true)
    (fun barrier hbarrier hyes =>
      hnotAfter _ ((h.fenced barrier hbarrier hyes).1 marker hmarkerMem))
    ⟨place,hplace⟩ ?_ ?_
  · have hkept : (before++after).Pairwise fun a b => a.divides=true ∨ b.divides=true →
        NotAfter places a.entry b.entry :=
      hordered.sublist (List.Sublist.append_left (sublist_cons_self _ _) _)
    have hedited := edited_ordered (fun a b ha hb hdivides => by simp [ha,hb] at hdivides)
      hreplaced.edited hkept
    obtain ⟨hleft',hright',hcross'⟩ := pairwise_append.mp hedited
    refine pairwise_append.mpr ⟨hleft',pairwise_cons.mpr ⟨?_,hright'⟩,?_⟩
    · intro w hw _ p hp q hq
      exact hbehind w (hafter w hw) (.inl hdivides) p (by rw [hsame,← hplace]; exact hp) q hq
    intro a ha b hb hab
    rcases mem_cons.mp hb with rfl | hb
    · rcases hbefore a ha with ha | ⟨_,hnot⟩
      · exact hnotAfter _ (hcross a ha marker (by simp) (.inr hdivides))
      · rw [hnew,hnot] at hab
        simp at hab
    · exact hcross' a ha b hb hab
  · obtain ⟨hmarkers,hmarkers'⟩ := edited_markers places hreplaced.edited
    have hall := h.opened
    rw [hwaiting,hopened,markersOf_append,hfirst,map_append] at hall
    have hall := append_cancel_left hall
    unfold markersOf at hall
    rw [filterMap_cons,hmarker] at hall
    rw [markersOf_append,hmarkers,hfirst,map_append]
    refine congrArg _ ?_
    rw [markersOf_cons_free (unmarked_of_not_divides hnew),hmarkers']
    exact (cons.inj hall).2
  · have hkeys := h.keys
    rw [hwaiting] at hkeys
    refine replaced_keys [marker] hreplaced rfl ?_ (by simp [hfree,hkey]) ?_ hkeys
    · intro hbarrier
      rw [not_barrier_of_not_divides hnew] at hbarrier
      cases hbarrier
    · intro w hw hbarrier
      refine ((hformed w ?_).of_barrier hbarrier).1
      rw [hwaiting]
      simp [hw]

def placesAfter (places : Places) (opened : List (Nat × Nat)) (s : Intake) (entry : Entry)
    (number : Nat) : Places := fun other =>
  if other=s.asQueued entry then some (placeOf opened (s.resolves entry) number)
  else places other

theorem not_open {waiting : List Waiting} {n : Nat}
    (hopened : markersOf places waiting=opened.map fun marker => (marker.1,some marker.2))
    (hnone : ∀ w∈waiting, w.marker≠some n) : ∀ marker∈opened, marker.1≠n := by
  rintro ⟨m,p⟩ hmem rfl
  have hmem : (m,some p)∈opened.map fun marker => (marker.1,some marker.2) :=
    mem_map.mpr ⟨_,hmem,rfl⟩
  rw [← hopened] at hmem
  obtain ⟨w,hw,heq⟩ := mem_filterMap.mp hmem
  obtain ⟨marker,hmarker,heq⟩ := Option.map_eq_some_iff.mp heq
  obtain ⟨rfl,_⟩ := mk.inj heq
  exact hnone w hw hmarker

theorem not_found {n : Nat} (h : ∀ marker∈opened, marker.1≠n) :
    opened.find? (fun open_ => open_.1=n)=none ∧ opened.eraseP (fun open_ => open_.1=n)=opened :=
  ⟨find?_eq_none.mpr (by simpa using h),eraseP_of_forall_not (by simpa using h)⟩

/-- What arrives goes behind every marker and idle query, or where the marker it resolves was. -/
theorem push_divided (hs : Sound s) (hproper : entry.proper=true)
    (hpushed : (s.asQueued entry).asPushed=s.asQueued entry)
    (hfresh : ∀ other∈s.entries++handed, other.asPushed≠s.asQueued entry)
    (hbound : ∀ other p, places other=some p → p<number) (h : Divided places opened handed s) :
    Divided (placesAfter places opened s entry number)
      (if s.closed then opened else openedAfter opened (s.asQueued entry) (s.resolves entry) number)
      handed (s.push entry marks).1 := by
  set places' := placesAfter places opened s entry number with hplaces
  have hsame : ∀ other∈s.entries++handed, places' other.asPushed=places other.asPushed :=
    fun other hother => if_neg (hfresh other hother)
  have hown : places' (s.queuedWaiting entry).entry.asPushed =
      some (placeOf opened (s.resolves entry) number) := by
    change places' (s.asQueued entry).asPushed=_
    rw [hpushed]
    exact if_pos rfl
  have h := h.congr hsame
  have hmax : ∀ other∈s.entries++handed, ∀ p, places' other.asPushed=some p → p≤number :=
    fun other hother p hp => (hbound _ p (hsame other hother ▸ hp)).le
  rcases s.push_cases entry marks with
    ⟨hclosed,heq⟩ | ⟨hclosed,⟨left,_,hresolved,_,heq⟩ | ⟨hresolved,_,heq⟩⟩
  · rw [heq,if_pos hclosed]
    exact h
  · obtain ⟨keep,hkept,hkeep,hopened⟩ := resolving_opened hresolved h.opened
      (s.resolves entry) number
    rw [heq,hkept,if_neg (by simp [hclosed])]
    refine (h.filter (fun _ => true) ?_ hopened).frame rfl (filter_true _).symm
    exact fun w hw hgone => ((hs.formed w hw).of_marker (hkeep w hgone)).2
  · rw [heq,if_neg (by simp [hclosed])]
    obtain ⟨before,slot,after,before',after',lost,hspot,hreplaced,hqueued⟩ :=
      requeued_spec marks hs.formed hproper
    rw [hqueued]
    rcases hspot.cases with ⟨rfl,rfl,rfl,hnone⟩ | ⟨n,marker,hresolves,rfl,hwaiting,hmarker,hfirst⟩
    · obtain rfl := eq_nil_iff_forall_not_mem.mpr
        fun w hw => not_mem_nil ((edited_subset hreplaced.edited).2 w hw)
      have hplace : placeOf opened (s.resolves entry) number=number ∧ (s.resolves entry).elim opened
            (fun marker => opened.eraseP fun open_ => open_.1=marker)=opened := by
        unfold placeOf
        cases hresolves : s.resolves entry with
        | none => exact ⟨rfl,rfl⟩
        | some n =>
          obtain ⟨hfind,herase⟩ := not_found (not_open h.opened (hnone n hresolves))
          rw [Option.bind_some,hfind]
          exact ⟨rfl,herase⟩
      rw [hplace.1] at hown
      have hback := divided_back (s.gapAfter entry) h (s.queuedWaiting_formed entry)
        hown hmax hreplaced
      cases hmarker : markerOf (s.asQueued entry) with
      | some marker =>
        rw [openedAfter_marker hmarker]
        have hnew : (s.queuedWaiting entry).marker=some marker := hmarker
        rw [hnew] at hback
        exact hback
      | none =>
        rw [openedAfter_other hmarker hresolved]
        have hnew : (s.queuedWaiting entry).marker=none := hmarker
        rw [hnew] at hback
        rw [hplace.2]
        simpa using hback
    · obtain ⟨_,hnew⟩ := resolves_some hproper hresolves
      have hopened := h.opened
      rw [hwaiting,markersOf_append] at hopened
      obtain ⟨first,tail,rfl,hbefore,htail⟩ := map_eq_append_iff.mp hopened.symm
      have hcons : markersOf places' (marker::after) =
          (n,places' marker.entry.asPushed)::markersOf places' after := by
        rw [markersOf,filterMap_cons,hmarker]
        rfl
      rw [hcons] at htail
      obtain ⟨⟨m,place⟩,rest,rfl,heq,_⟩ := map_eq_cons_iff.mp htail
      obtain ⟨rfl,hplace⟩ := mk.inj heq
      obtain ⟨hfind,hkeep⟩ := not_found (not_open hbefore.symm hfirst)
      have hplaceOf : placeOf (first++(m,place)::rest) (s.resolves entry) number=place := by
        rw [hresolves,placeOf,Option.bind_some,find?_append,hfind]
        simp
      have hunmarked : markerOf (s.asQueued entry)=none := unmarked_of_not_divides hnew
      have herase : (first++(m,place)::rest).eraseP (fun open_ => open_.1=m)=first++rest := by
        rw [eraseP_append_right _ (by simpa using not_open hbefore.symm hfirst)]
        simp
      rw [hplaceOf] at hown
      rw [openedAfter_other hunmarked hresolved,hresolves,Option.elim_some,herase]
      exact divided_slot (s.gapAfter entry) h hwaiting hs.formed hmarker hnew hown
        hplace.symm rfl hbefore.symm hreplaced

end Push

section Runs

/-- The ledger with the place of each entry pushed and the markers no read, drop or end of the
reads has resolved, each with the number of its push. An entry's place is its own push or, for what
takes the place of a marker, the marker's. -/
structure Book where
  ledger : Ledger
  places : Places
  opened : List (Nat × Nat)

namespace Book

def new : Book := ⟨Ledger.new,fun _ => none,[]⟩

def step (b : Book) (op : Op) : Book :=
  match op with
  | .push entry _ =>
      let s := b.ledger.intake
      let number := b.ledger.pushed.length
      ⟨b.ledger.step op,placesAfter b.places b.opened s entry number,
        if s.closed then b.opened
        else openedAfter b.opened (s.asQueued entry) (s.resolves entry) number⟩
  | .close => ⟨b.ledger.step op,b.places,[]⟩
  | _ => {b with ledger := b.ledger.step op}

def run (ops : List Op) : Book := ops.foldl step new

end Book

variable {ops : List Op}

theorem book_concat (op : Op) : Book.run (ops++[op])=(Book.run ops).step op := by
  simp [Book.run]

theorem book_ledger (ops : List Op) : (Book.run ops).ledger=Ledger.run ops := by
  induction ops using reverseRecOn with
  | nil => rfl
  | append_singleton ops op ih =>
    rw [book_concat,run_concat,← ih]
    cases op <;> rfl

/-- What holds of the book over a run. -/
structure Kept (b : Book) : Prop where
  divided : Divided b.places b.opened b.ledger.handed b.ledger.intake
  bound : ∀ entry p, b.places entry=some p → p<b.ledger.pushed.length
  pushed : ∀ entry p, b.places entry=some p → entry∈b.ledger.pushed

theorem opened_waits (h : Divided places opened handed s) {marker : Nat × Nat}
    (hmarker : marker∈opened) :
    ∃ w∈s.waiting, w.divides=true ∧ places w.entry.asPushed=some marker.2 := by
  have hmem : (marker.1,some marker.2)∈opened.map fun marker => (marker.1,some marker.2) :=
    mem_map.mpr ⟨marker,hmarker,rfl⟩
  rw [← h.opened] at hmem
  obtain ⟨w,hw,heq⟩ := mem_filterMap.mp hmem
  obtain ⟨n,hn,heq⟩ := Option.map_eq_some_iff.mp heq
  exact ⟨w,hw,by simp [Waiting.divides,hn],(mk.inj heq).2⟩

theorem noted_unplaced (h : Distinct ops) (hkept : Kept (Book.run ops))
    (hnoted : entry.item.isNotedCaret=true) : (Book.run ops).places entry.asPushed=none := by
  cases hplace : (Book.run ops).places entry.asPushed with
  | none => rfl
  | some p =>
    have hmem := hkept.pushed _ p hplace
    rw [book_ledger] at hmem
    have hnot := ((run_pushed h).2 _ hmem).2
    rw [(asPushed_frame entry).2,hnoted] at hnot
    cases hnot

theorem placeOf_le {b : Book} (hkept : Kept b) (resolves : Option Nat) :
    placeOf b.opened resolves b.ledger.pushed.length≤b.ledger.pushed.length := by
  unfold placeOf
  cases hfind : resolves.bind (fun marker => b.opened.find? fun open_ => open_.1=marker) with
  | none => exact le_rfl
  | some open_ =>
    obtain ⟨n,_,hfind⟩ := Option.bind_eq_some_iff.mp hfind
    obtain ⟨w,_,_,hplace⟩ := opened_waits hkept.divided (mem_of_find?_eq_some hfind)
    exact (hkept.bound _ _ hplace).le

theorem step_kept {op : Op} (h : Distinct (ops++[op])) (hkept : Kept (Book.run ops)) :
    Kept ((Book.run ops).step op) := by
  have hdistinct := h.of_concat.1
  have hproper := h.of_concat.2
  have hs := run_sound hdistinct
  rw [← book_ledger] at hs
  cases op with
  | push entry marks =>
    obtain ⟨hpushed,hnot⟩ := asQueued_proper (Book.run ops).ledger.intake hproper
    have hnew : (Book.run ops).ledger.intake.asQueued entry∉(Book.run ops).ledger.pushed := by
      intro hmem
      have htraces := h.traces
      rw [filterMap_append,map_append,← (run_pushed hdistinct).1,← book_ledger] at htraces
      refine (nodup_append.mp htraces).2.2 _ (mem_map_of_mem hmem) entry.trace
        (by simp [Op.pushed?]) ?_
      exact asQueued_trace _ entry
    refine ⟨?_,?_,?_⟩
    · refine push_divided hs ?_ hpushed ?_ hkept.bound hkept.divided
      · simp only [Op.proper,Bool.and_eq_true] at hproper
        exact hproper.1.1
      intro other hother heq
      rcases hkept.divided.placed other hother with ⟨p,hp⟩ | hnoted
      · exact hnew (heq ▸ hkept.pushed _ p hp)
      rw [← heq,(asPushed_frame other).2,hnoted] at hnot
      cases hnot
    · intro other p hp
      have hlength : ((Book.run ops).step (.push entry marks)).ledger.pushed.length =
          (Book.run ops).ledger.pushed.length+1 := by
        simp [Book.step,step]
      change placesAfter _ _ _ _ _ other=some p at hp
      unfold placesAfter at hp
      split at hp
      · have hle := placeOf_le hkept ((Book.run ops).ledger.intake.resolves entry)
        cases hp
        omega
      · have hlt := hkept.bound other p hp
        omega
    · intro other p hp
      change placesAfter _ _ _ _ _ other=some p at hp
      unfold placesAfter at hp
      refine mem_append.mpr ?_
      split at hp
      next heq => exact .inr (mem_singleton.mpr heq)
      · exact .inl (hkept.pushed other p hp)
  | next marks =>
    refine ⟨?_,hkept.bound,hkept.pushed⟩
    exact takes_divided (filled_sound hs)
      (fun entry hnoted => noted_unplaced hdistinct hkept hnoted)
      (filled_divided hs hkept.divided) (take_takes _ marks)
  | cancel id => exact ⟨cancel_divided hs hkept.divided id,hkept.bound,hkept.pushed⟩
  | close =>
    refine ⟨hkept.divided.restrict (nil_sublist _) ?_ (fun _ => mem_append_right _) ?_
      rfl nodup_nil,
      hkept.bound,hkept.pushed⟩
    · exact forall_mem_nil _
    · exact forall_mem_nil _
  | whenIdle entry | takeIdle | setGap gap =>
    exact ⟨hkept.divided.frame rfl rfl,hkept.bound,hkept.pushed⟩

theorem run_kept (h : Distinct ops) : Kept (Book.run ops) := by
  induction ops using reverseRecOn with
  | nil =>
    have hnone : ∀ entry p, (Book.run []).places entry≠some p := by simp [Book.run,Book.new]
    refine ⟨⟨.nil,fun _ _ => forall_mem_nil _,forall_mem_nil _,forall_mem_nil _,rfl,
      forall_mem_nil _,nodup_nil⟩,?_,?_⟩
    · exact fun entry p hp => absurd hp (hnone entry p)
    · exact fun entry p hp => absurd hp (hnone entry p)
  | append_singleton ops op ih =>
    rw [book_concat]
    exact step_kept h (ih h.of_concat.1)

theorem next_handed {marks : Marks} {number : Nat}
    (h : (s.next marks).2=some (planned,number)) :
    (∃ batch, (s.filled marks).batch=planned::batch) ∨
      ∃ noted, (s.filled marks).idle=some noted ∧ planned=.run noted := by
  rw [next_eq] at h
  unfold handOut at h
  split at h
  next first batch hbatch =>
    cases h
    exact .inl ⟨batch,hbatch⟩
  unfold nextIdle at h
  split at h
  · cases h
  · obtain ⟨noted,hidle,heq⟩ := Option.map_eq_some_iff.mp h
    exact .inr ⟨noted,hidle,(mk.inj heq).1.symm⟩

/-- What is left once the last of a batch is taken was waiting, is a noted caret or is the idle
query put back. -/
theorem takes_left {t t' : Intake} (hs : Sound t) (h : Takes t t' out) (hbatch : t.batch=[planned])
    (hentry : entry∈t'.entries) :
    (∃ w∈t.waiting, w.entry=entry) ∨ entry.item.isNotedCaret=true ∨
      ∃ other∈planned.entries, other.asPushed=entry.asPushed := by
  cases h with
  | handed hsplit =>
    rw [hbatch] at hsplit
    obtain ⟨rfl,rfl⟩ := cons.inj hsplit
    refine .inl ?_
    simpa [entries] using hentry
  | @putBack asker trace observedAtUs front batch noted hsplit hidle =>
    rw [hbatch] at hsplit
    obtain ⟨rfl,rfl⟩ := cons.inj hsplit
    have hopen := open_of_batch hs hbatch
    rw [pushAhead_eq (t := {t with batch := [], idle := none}) hopen] at hentry
    rcases mem_putBack hentry with rfl | rfl | hw
    · exact .inr (.inl (hs.kept entry (by rw [hidle]; rfl)))
    · exact .inr (.inr ⟨_,mem_cons_self,rfl⟩)
    · exact .inl hw
  | kept hnone hidle | nothing hnone =>
    rw [hbatch] at hnone
    cases hnone

theorem takes_out {t t' : Intake} (h : Takes t t' out) (hbatch : t.batch=planned::batch) :
    out=planned.entries ∨ out=[] := by
  cases h with
  | handed hsplit =>
    rw [hbatch] at hsplit
    obtain ⟨rfl,_⟩ := cons.inj hsplit
    exact .inl rfl
  | putBack hsplit hidle => exact .inr rfl
  | kept hnone hidle =>
    rw [hbatch] at hnone
    cases hnone
  | nothing hnone => exact .inr rfl

theorem Distinct.next (h : Distinct ops) (marks : Marks) : Distinct (ops++[.next marks]) := by
  have hnone : [Op.next marks].filterMap Op.pushed?=[] := rfl
  refine ⟨?_,by rw [filterMap_append,hnone,append_nil]; exact h.traces⟩
  intro op hop
  rcases mem_append.mp hop with hop | hop
  · exact h.proper op hop
  · rw [mem_singleton.mp hop]
    rfl

theorem handed_or_dropped (h : Distinct ops) (hpushed : entry∈(run ops).pushed)
    (hgone : ∀ other∈(run ops).intake.entries, other.asPushed≠entry) :
    (∃ other∈(run ops).handed, other.asPushed=entry) ∨
      ∃ reason gone, gone.asPushed=entry ∧ Dropped ops reason gone := by
  obtain ⟨⟨lost,hcount,hlost⟩,_,_⟩ := run_accounts h
  have hcount := hcount entry
  have hmem : ∀ entries : List Entry, tally entry entries≠0 →
      ∃ other∈entries, other.asPushed=entry := fun entries hne =>
    mem_map.mp (count_pos_iff.mp (Nat.pos_of_ne_zero hne))
  have hnone : tally entry (run ops).intake.entries=0 := by
    by_contra hne
    obtain ⟨other,hother,heq⟩ := hmem _ hne
    exact hgone other hother heq
  rw [tally_pushed h hpushed,hnone] at hcount
  by_cases hhanded : tally entry (run ops).handed=0
  · obtain ⟨gone,hgone,heq⟩ := hmem lost (by omega)
    obtain ⟨reason,hdropped⟩ := hlost gone hgone
    exact .inr ⟨reason,gone,heq,hdropped⟩
  · exact .inl (hmem _ hhanded)

/-- When `next` hands out an idle query, no marker pushed before it is open, every entry whose
place is before it has been handed out or dropped, and none whose place is after it has been
handed out. While a marker is open, `next` hands out nothing whose place is after it but the noted
caret kept. Between idle queries each key waits once. -/
theorem next_divided (ops : List Op) (h : Distinct ops) :
    (∀ marks planned number,
      ((run ops).intake.next marks).2=some (planned,number) →
      (∀ barrier∈planned.entries, barrier.item.isBarrier=true →
        ∃ place, (Book.run ops).places barrier.asPushed=some place ∧
          (∀ marker∈(Book.run ops).opened, ¬ marker.2<place) ∧
          (∀ entry q, (Book.run ops).places entry=some q → q<place →
            (∃ other∈(run (ops++[.next marks])).handed, other.asPushed=entry) ∨
            ∃ reason gone, gone.asPushed=entry ∧ Dropped (ops++[.next marks]) reason gone) ∧
          ∀ entry∈(run (ops++[.next marks])).handed, ∀ q,
            (Book.run ops).places entry.asPushed=some q → ¬ place<q) ∧
      ∀ marker∈(Book.run ops).opened, ∀ entry∈planned.entries,
        entry.item.isNotedCaret=true ∨
          ∃ q, (Book.run ops).places entry.asPushed=some q ∧ ¬ marker.2<q) ∧
    ∀ before a between b after,
      (run ops).intake.waiting=before++a::(between++b::after) →
      a.key.isSome=true → b.key=a.key → ∃ w∈between, w.isBarrier=true := by
  have hkept := run_kept h
  have hs := run_sound h
  refine ⟨?_,?_⟩
  · intro marks planned number hnext
    have hdivided : Divided (Book.run ops).places (Book.run ops).opened
        (Book.run ops).ledger.handed ((Book.run ops).ledger.intake.filled marks) :=
      filled_divided (book_ledger ops ▸ hs) hkept.divided
    rw [book_ledger] at hdivided
    have hfilled : Sound ((run ops).intake.filled marks) := filled_sound hs
    set t := (run ops).intake.filled marks with ht
    have htakes := take_takes (run ops).intake marks
    have hhanded : (run (ops++[.next marks])).handed=(run ops).handed ++
        ((run ops).intake.take marks).2 := by
      rw [run_concat]
      rfl
    rcases next_handed hnext with ⟨batch,hbatch⟩ | ⟨noted,hidle,rfl⟩
    · have hmem : ∀ entry∈planned.entries, entry∈t.plannedEntries := fun _ => mem_planned hbatch
      refine ⟨?_,?_⟩
      · intro barrier hbarrier hyes
        obtain ⟨hbehind,hbefore⟩ := hdivided.fenced barrier (hmem barrier hbarrier) hyes
        obtain ⟨place,hplace⟩ : ∃ place, (Book.run ops).places barrier.asPushed=some place := by
          refine (hdivided.placed barrier (mem_append_left _
            (mem_entries_of_planned (hmem barrier hbarrier)))).resolve_right ?_
          intro hnoted
          rw [not_barrier_of_noted hnoted] at hyes
          cases hyes
        obtain rfl := last_of_barrier (hbatch ▸ hdivided.last) hbarrier hyes
        have halone : planned=.run barrier := by
          refine (hfilled.alone planned (by rw [hbatch]; simp) barrier hbarrier).resolve_right ?_
          intro hkey
          revert hyes hkey
          cases barrier.item <;> simp [Item.isBarrier,classify]
        refine ⟨place,hplace,?_,?_,?_⟩
        · intro marker hmarker
          obtain ⟨w,hw,_,hq⟩ := opened_waits hdivided hmarker
          exact Nat.not_lt.mpr (hbehind w hw place hplace _ hq)
        · intro entry q hq hlt
          have hpushed : entry∈(run (ops++[.next marks])).pushed := by
            have hmem := hkept.pushed entry q hq
            rw [book_ledger] at hmem
            rw [run_concat]
            exact hmem
          refine handed_or_dropped (h.next marks) hpushed ?_
          intro other hother heq
          rw [run_concat] at hother
          rcases takes_left hfilled htakes hbatch hother with ⟨w,hw,rfl⟩ | hnoted | ⟨x,hx,hxeq⟩
          · have hle := hbehind w hw place hplace q (by rw [heq]; exact hq)
            omega
          · have hnone := noted_unplaced h hkept hnoted
            rw [heq,hq] at hnone
            cases hnone
          · rw [halone] at hx
            rw [← heq,← hxeq,mem_singleton.mp hx,hplace] at hq
            have hsame := Option.some.inj hq
            omega
        · intro entry hentry q hq
          rw [hhanded] at hentry
          refine Nat.not_lt.mpr (hbefore entry ?_ q hq place hplace)
          rw [← book_ledger] at hentry ⊢
          rcases mem_append.mp hentry with hentry | hentry
          · exact mem_append_right _ hentry
          refine mem_append_left _ (hmem entry ?_)
          rw [book_ledger] at hentry
          rcases takes_out htakes hbatch with hout | hout <;> rw [hout] at hentry
          · exact hentry
          · cases hentry
      · intro marker hmarker entry hentry
        obtain ⟨w,hw,hdivides,hq⟩ := opened_waits hdivided hmarker
        have hentry := hmem entry hentry
        rcases hdivided.placed entry (mem_append_left _ (mem_entries_of_planned hentry)) with
          ⟨p,hp⟩ | hnoted
        · refine .inr ⟨p,hp,Nat.not_lt.mpr ?_⟩
          exact hdivided.ahead entry (mem_append_left _ hentry) w hw hdivides p hp _ hq
        · exact .inl hnoted
    · have hnoted := hfilled.kept noted (by rw [hidle]; rfl)
      refine ⟨?_,?_⟩
      · intro barrier hbarrier hyes
        rw [mem_singleton.mp hbarrier,not_barrier_of_noted hnoted] at hyes
        cases hyes
      · intro marker _ entry hentry
        rw [mem_singleton.mp hentry]
        exact .inl hnoted
  · intro before a between b after hsplit hsome hsame
    have hkeys := hkept.divided.keys
    rw [book_ledger] at hkeys
    obtain ⟨w,hw,hbarrier⟩ := barrier_between hkeys hsplit hsome hsame
    rcases mem_cons.mp hw with rfl | hw
    · have hnone := ((hs.formed w (by rw [hsplit]; simp)).of_barrier hbarrier).1
      rw [hnone] at hsome
      cases hsome
    · exact ⟨w,hw,hbarrier⟩

/-- A name change, a marker, an idle query and a query arrive; the marker's read arrives once the
name change is handed out. -/
def markedRun : List Op :=
  [.push ⟨.msaa .nameChange 9 objidClient 1 3,1,10,.untested⟩ ⟨none,.none⟩,
    .push ⟨.fact (.uiaFocusMarker 5) none,2,20,.untested⟩ ⟨none,.none⟩,
    .push ⟨.barrier (.round 7) false,3,30,.untested⟩ ⟨none,.none⟩,
    .push ⟨.query ⟨.shell,1⟩ .focusNow,4,40,.untested⟩ ⟨none,.none⟩,
    .next ⟨none,.none⟩,
    .push ⟨.fact (.uiaFocusRead 5 ⟨9,[1,2],[]⟩ true) none,5,50,.untested⟩ ⟨none,.none⟩,
    .next ⟨none,.none⟩]

theorem markedRun_divided :
    ((run markedRun).intake.next ⟨none,.none⟩).2 =
      some (.run ⟨.barrier (.round 7) false,3,30,.untested⟩,2) ∧
    ∃ place, (Book.run markedRun).places ⟨.barrier (.round 7) false,3,30,.untested⟩=some place ∧
      (∀ entry q, (Book.run markedRun).places entry=some q → q<place →
        (∃ other∈(run (markedRun++[.next ⟨none,.none⟩])).handed,other.asPushed=entry) ∨
        ∃ reason gone, gone.asPushed=entry ∧
          Dropped (markedRun++[.next ⟨none,.none⟩]) reason gone) := by
  have hnext : ((run markedRun).intake.next ⟨none,.none⟩).2 =
      some (.run ⟨.barrier (.round 7) false,3,30,.untested⟩,2) := by decide +kernel
  have hdistinct : Distinct markedRun := ⟨by decide +kernel,by decide +kernel⟩
  obtain ⟨place,hplace,_,hbefore,_⟩ := ((next_divided markedRun hdistinct).1 _ _ _ hnext).1 _
    mem_cons_self rfl
  exact ⟨hnext,place,hplace,hbefore⟩

end Runs

end Verbatim.Outpost
