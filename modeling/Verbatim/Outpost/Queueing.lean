import Verbatim.Framework.Places
import Verbatim.Outpost.Intake

namespace Verbatim.Outpost

open Framework List Intake Waiting Option Bool

/-- A waiting entry carries what its own item gives. -/
structure Waiting.Formed (w : Waiting) : Prop where
  key : w.key=(classify w.entry.item).1
  category : w.category=(classify w.entry.item).2.1
  marker : w.marker=markerOf w.entry

namespace Waiting.Formed

variable {w : Waiting} (h : w.Formed)

include h

theorem of_barrier (hbarrier : w.isBarrier=true) :
    w.key=none ∧ w.category=.exempt ∧ w.marker=none := by
  rw [h.key,h.category,h.marker]
  revert hbarrier
  unfold isBarrier
  cases hitem : w.entry.item <;> simp [Item.isBarrier,classify,markerOf,hitem]

theorem of_marker (hmarker : w.marker.isSome=true) : w.key=none ∧ w.isBarrier=false := by
  rw [h.marker] at hmarker
  rw [h.key]
  unfold markerOf at hmarker
  split at hmarker
  next hitem => simp [isBarrier,hitem,Item.isBarrier,classify,classifyFact]
  · cases hmarker

theorem not_divides (hkey : w.key.isSome=true) : w.divides=false := by
  cases hdivides : w.divides with
  | false => rfl
  | true =>
    rcases or_eq_true _ _ ▸ hdivides with hmarker | hbarrier
    · rw [(h.of_marker hmarker).1] at hkey
      cases hkey
    · rw [(h.of_barrier hbarrier).1] at hkey
      cases hkey

end Waiting.Formed

theorem not_barrier_of_not_divides {w : Waiting} (h : w.divides=false) :
    w.isBarrier=false := (or_eq_false_iff.mp h).2

/-- The entries no idle query divides from the spot behind `before` and ahead of `after`. -/
def stretch (before after : List Waiting) : List Waiting :=
  before.reverse.takeWhile (fun w => !w.isBarrier)++after.takeWhile fun w => !w.isBarrier

/-- How a search around the spot behind `before` ends. -/
inductive Removal (isIt : Waiting → Bool) (before after : List Waiting) :
    List Waiting × Option (Nat × Waiting) → Prop where
  | none (h : ∀ w∈stretch before after, isIt w=false) :
      Removal isIt before after (before++after,none)
  | behind {older w newer} (hsplit : before=older++w::newer) (hw : isIt w=true)
      (hnone : ∀ x∈w::newer, x.isBarrier=false) :
      Removal isIt before after (older++newer++after,some (older.length,w))
  | ahead {older w newer} (hsplit : after=older++w::newer) (hw : isIt w=true)
      (hnone : ∀ x∈older++[w], x.isBarrier=false) :
      Removal isIt before after (before++(older++newer),some (before.length+older.length,w))

theorem removeWaiting_removal (isIt : Waiting → Bool) (before after : List Waiting) :
    Removal isIt before after (removeWaiting (before++after) before.length isIt) := by
  unfold removeWaiting
  rw [take_left,drop_left]
  obtain ⟨further,hbefore,hback⟩ := takeWhile_split (fun w => !w.isBarrier) before.reverse
  obtain ⟨beyond,hafter,hahead⟩ := takeWhile_split (fun w => !w.isBarrier) after
  cases hbehind : (before.reverse.takeWhile fun w => !w.isBarrier).findIdx? isIt with
  | some back =>
    obtain ⟨near,w,rest,hsplit,rfl,hw,_⟩ := findIdx?_split hbehind
    rw [hsplit] at hbefore hback
    have hbefore := reverse_eq_iff.mp hbefore
    have hspot : before.length-1-near.length=(further.reverse++rest.reverse).length := by
      rw [hbefore]
      simp
      omega
    have hform : before=(further.reverse++rest.reverse)++w::near.reverse := by
      rw [hbefore]
      simp
    simp only [map_some,some_or]
    rw [hspot]
    have hlist : before++after=(further.reverse++rest.reverse)++w::(near.reverse++after) := by
      rw [hform]
      simp
    rw [hlist,eraseIdx_split,getElem?_split,← append_assoc]
    refine Removal.behind hform hw ?_
    intro x hx
    have hx : x∈near++w::rest := by
      rcases mem_cons.mp hx with rfl | hx
      · simp
      · exact mem_append_left _ (mem_reverse.mp hx)
    simpa using hback x hx
  | none =>
    cases hfound : (after.takeWhile fun w => !w.isBarrier).findIdx? isIt with
    | none =>
      refine Removal.none ?_
      intro w hw
      rcases mem_append.mp hw with hw | hw
      · exact findIdx?_eq_none_iff.mp hbehind w hw
      · exact findIdx?_eq_none_iff.mp hfound w hw
    | some spot =>
      obtain ⟨near,w,rest,hsplit,rfl,hw,_⟩ := findIdx?_split hfound
      rw [hsplit] at hafter hahead
      have hform : after=near++w::(rest++beyond) := by
        rw [hafter]
        simp
      have hlist : before++after=(before++near)++w::(rest++beyond) := by
        rw [hform]
        simp
      simp only [map_some,map_none,none_or]
      rw [hlist,← length_append,eraseIdx_split,getElem?_split,append_assoc,length_append]
      refine Removal.ahead hform hw ?_
      intro x hx
      have hx : x∈near++w::rest := by
        rcases mem_append.mp hx with hx | hx
        · exact mem_append_left _ hx
        · simp [mem_singleton.mp hx]
      simpa using hahead x hx

theorem moveOldFocus_run (old : List Int) (before : List Waiting) (marker : Waiting)
    (seen rest after : List Waiting) :
    (range' (before.length+1+seen.length) rest.length).foldl (moveOldFocus old)
        (before++seen.filter (ofOldFocus old) ++
            marker::(seen.filter (fun w => !ofOldFocus old w)++(rest++after)),
          (before++seen.filter (ofOldFocus old)).length) =
      (before++(seen++rest).filter (ofOldFocus old) ++
          marker::((seen++rest).filter (fun w => !ofOldFocus old w)++after),
        (before++(seen++rest).filter (ofOldFocus old)).length) := by
  induction rest generalizing seen with
  | nil => simp
  | cons w rest ih =>
    have hcount := length_eq_length_filter_add (l := seen) (ofOldFocus old)
    rw [length_cons,range'_succ,foldl_cons]
    have hspot : before.length+1+seen.length=(before++seen.filter (ofOldFocus old) ++
        marker::seen.filter fun w => !ofOldFocus old w).length := by
      simp only [length_append,length_cons]
      omega
    have hlist : before++seen.filter (ofOldFocus old) ++
        marker::(seen.filter (fun w => !ofOldFocus old w)++(w::rest++after)) =
        (before++seen.filter (ofOldFocus old) ++
          marker::seen.filter fun w => !ofOldFocus old w)++w::(rest++after) := by
      simp
    have hstep : moveOldFocus old (before++seen.filter (ofOldFocus old) ++
          marker::(seen.filter (fun w => !ofOldFocus old w)++(w::rest++after)),
          (before++seen.filter (ofOldFocus old)).length) (before.length+1+seen.length) =
        (before++(seen++[w]).filter (ofOldFocus old) ++
            marker::((seen++[w]).filter (fun w => !ofOldFocus old w)++(rest++after)),
          (before++(seen++[w]).filter (ofOldFocus old)).length) := by
      unfold moveOldFocus
      rw [hspot,hlist,getElem?_split]
      cases hold : ofOldFocus old w with
      | true =>
        simp only [hold,if_true,eraseIdx_split]
        have hassoc : before++seen.filter (ofOldFocus old) ++
            marker::seen.filter (fun w => !ofOldFocus old w)++(rest++after) =
            (before++seen.filter (ofOldFocus old)) ++
              (marker::seen.filter (fun w => !ofOldFocus old w)++(rest++after)) := by
          simp
        rw [hassoc,insertIdx_split]
        simp [hold,Nat.add_assoc]
      | false => simp [hold]
    have hlength : before.length+1+seen.length+1=before.length+1+(seen++[w]).length := by
      simp [Nat.add_assoc]
    rw [hstep,hlength,ih (seen++[w])]
    simp

/-- The old focus's events up to the next marker or idle query go ahead of the marker, in their
order. -/
theorem oldFocusEventsFirst_eq (old : List Int) (before : List Waiting) (marker : Waiting)
    (after : List Waiting) :
    ∃ segment rest, after=segment++rest ∧ (∀ w∈segment, w.divides=false) ∧
      oldFocusEventsFirst (before++marker::after) before.length old =
        (before++segment.filter (ofOldFocus old) ++
            marker::(segment.filter (fun w => !ofOldFocus old w)++rest),
          (before++segment.filter (ofOldFocus old)).length) := by
  have hdrop : (before++marker::after).drop (before.length+1)=after := by simp
  have hrun := fun segment rest => moveOldFocus_run old before marker [] segment rest
  simp only [filter_nil,append_nil,nil_append,length_nil,Nat.add_zero] at hrun
  unfold oldFocusEventsFirst
  simp only [hdrop]
  cases hfind : after.findIdx? divides with
  | none =>
    refine ⟨after,[],by simp,fun w hw => findIdx?_eq_none_iff.mp hfind w hw,?_⟩
    have hstop : (before++marker::after).length-(before.length+1)=after.length := by
      simp
      omega
    rw [elim_none,hstop]
    have hrun := hrun after []
    rw [append_nil] at hrun
    rw [hrun]
  | some spot =>
    obtain ⟨segment,w,rest,rfl,rfl,_,hnone⟩ := findIdx?_split hfind
    refine ⟨segment,w::rest,rfl,hnone,?_⟩
    rw [elim_some,Nat.add_sub_cancel_left]
    exact hrun segment (w::rest)

section Edit

/-- What a push does to the entries before and behind the spot its entry goes to, and what it
takes out. -/
inductive Edited (before after : List Waiting) :
    List Waiting → List Waiting → List Waiting → Prop where
  | refl : Edited before after before after []
  | behind {older w newer ahead lost} (h : Edited before after (older++w::newer) ahead lost)
      (hw : w.divides=false) (hnone : ∀ x∈newer, x.isBarrier=false) :
      Edited before after (older++newer) ahead (w::lost)
  | ahead {behind older w newer lost} (h : Edited before after behind (older++w::newer) lost)
      (hw : w.divides=false) (hnone : ∀ x∈older, x.isBarrier=false) :
      Edited before after behind (older++newer) (w::lost)
  | move {behind segment rest lost} (first : Waiting → Bool)
      (h : Edited before after behind (segment++rest) lost)
      (hnone : ∀ w∈segment, w.divides=false) :
      Edited before after (behind++segment.filter first)
        (segment.filter (fun w => !first w)++rest) lost

/-- Whether an entry of `key`, as `item`, takes `w` out. -/
def Displaces (key : Option Key) (item : Item) (w : Waiting) : Prop :=
  (key.isSome=true ∧ w.key=key) ∨ ∃ window raiser fact stamp,
    key=some (.foreground window raiser) ∧ item=.fact fact stamp ∧
      clientFocus window raiser stamp w=true

/-- A push of an entry of `key` edits what lies around its spot: what it takes out it displaces,
and no other entry of its key is left there. -/
structure Replaced (key : Option Key) (item : Item) (before after before' after' lost :
    List Waiting) : Prop where
  edited : Edited before after before' after' lost
  displaced : ∀ w∈lost, w∈stretch before after ∧ Displaces key item w
  sole : key.isSome=true → (∀ w∈stretch before after, w.key≠key) ∨ ∃ w∈lost, w.key=key

variable {after : List Waiting} {w : Waiting} {older newer : List Waiting}

theorem mem_stretch_behind (hnone : ∀ x∈w::newer, x.isBarrier=false) :
    w∈stretch (older++w::newer) after := by
  refine mem_append_left _ ?_
  have hrest : ∀ x∈newer.reverse, (fun w : Waiting => !w.isBarrier) x=true := by
    intro x hx
    simpa using hnone x (mem_cons_of_mem _ (mem_reverse.mp hx))
  rw [reverse_append,reverse_cons,append_assoc,takeWhile_append_of_pos hrest]
  simp [hnone w]

variable {before : List Waiting}

theorem mem_stretch_ahead (hnone : ∀ x∈older++[w], x.isBarrier=false) :
    w∈stretch before (older++w::newer) := by
  refine mem_append_right _ ?_
  have hrest : ∀ x∈older, (fun w : Waiting => !w.isBarrier) x=true := by
    intro x hx
    simpa using hnone x (by simp [hx])
  rw [takeWhile_append_of_pos hrest]
  simp [hnone w]

theorem takeWhile_of_removed {x : Waiting} (hw : w.isBarrier=false)
    (hx : x∈(older++newer).takeWhile fun w => !w.isBarrier) :
    x∈(older++w::newer).takeWhile fun w => !w.isBarrier := by
  rw [takeWhile_append] at hx ⊢
  split at hx
  next hall =>
    rw [if_pos hall,takeWhile_cons_of_pos (by simp [hw])]
    rcases mem_append.mp hx with hx | hx
    · exact mem_append_left _ hx
    · exact mem_append_right _ (mem_cons_of_mem _ hx)
  next hall =>
    rw [if_neg hall]
    exact hx

theorem stretch_of_removed {x : Waiting} (hw : w.isBarrier=false)
    (hx : x∈stretch (older++newer) after) : x∈stretch (older++w::newer) after := by
  refine (mem_append.mp hx).elim (fun hx => mem_append_left _ ?_) (mem_append_right _)
  rw [reverse_append] at hx
  rw [reverse_append,reverse_cons,append_assoc]
  exact takeWhile_of_removed hw hx

theorem stretch_of_removed_ahead {x : Waiting} (hw : w.isBarrier=false)
    (hx : x∈stretch before (older++newer)) : x∈stretch before (older++w::newer) :=
  (mem_append.mp hx).elim (mem_append_left _)
    fun hx => mem_append_right _ (takeWhile_of_removed hw hx)

variable {lost : List Waiting}

theorem stretch_of_edited {before' after' : List Waiting}
    (h : Edited before after before' after' lost) :
    ∀ w∈stretch before' after', w∈stretch before after := by
  induction h with
  | refl => exact fun _ hw => hw
  | behind h hw hnone ih =>
    exact fun x hx => ih x (stretch_of_removed (not_barrier_of_not_divides hw) hx)
  | ahead h hw hnone ih =>
    exact fun x hx => ih x (stretch_of_removed_ahead (not_barrier_of_not_divides hw) hx)
  | @move behind segment rest lost first h hnone ih =>
    intro x hx
    refine ih x ?_
    have hpass : ∀ w∈segment, (fun w : Waiting => !w.isBarrier) w=true := by
      intro w hw
      simp [not_barrier_of_not_divides (hnone w hw)]
    have hfiltered : ∀ keep : Waiting → Bool, ∀ w∈segment.filter keep,
        (fun w : Waiting => !w.isBarrier) w=true :=
      fun keep w hw => hpass w (mem_of_mem_filter hw)
    unfold stretch at hx ⊢
    rw [reverse_append,takeWhile_append_of_pos
      fun w hw => hfiltered _ w (mem_reverse.mp hw),
      takeWhile_append_of_pos (hfiltered _)] at hx
    rw [takeWhile_append_of_pos hpass]
    simp only [mem_append,mem_reverse,mem_filter] at hx ⊢
    tauto

theorem edited_subset {before' after' : List Waiting} (h : Edited before after before' after' lost)
    :
    (∀ w∈before', w∈before ∨ w∈after ∧ w.divides=false) ∧ ∀ w∈after', w∈after := by
  induction h with
  | refl => exact ⟨fun _ hw => .inl hw,fun _ hw => hw⟩
  | behind h hw hnone ih =>
    exact ⟨fun x hx => ih.1 x (by simp at hx ⊢; tauto),ih.2⟩
  | ahead h hw hnone ih =>
    exact ⟨ih.1,fun x hx => ih.2 x (by simp at hx ⊢; tauto)⟩
  | move first h hnone ih =>
    refine ⟨fun x hx => ?_,fun x hx => ih.2 x (by simp at hx ⊢; tauto)⟩
    rcases mem_append.mp hx with hx | hx
    · exact ih.1 x hx
    · have hx := mem_of_mem_filter hx
      exact .inr ⟨ih.2 x (mem_append_left _ hx),hnone x hx⟩

/-- Where the spot behind `before` is once a search has taken its entry out. -/
def spotAfter (before : List Waiting) (removed : Option (Nat × Waiting)) : Nat :=
  removed.elim before.length
    fun removed => if removed.1<before.length then before.length-1 else before.length

variable {result : List Waiting × Option (Nat × Waiting)}

/-- The removal of the entry of `key`, around a spot held by `slot` or by nothing. -/
theorem replaced_of_removal {key : Key} (item : Item) (slot : List Waiting)
    (hformed : ∀ w∈before++after, w.Formed) (hslot : ∀ w∈slot, w.isBarrier=false ∧ w.key=none)
    (hremoval : Removal (fun w => w.key=some key) before (slot++after) result) :
    ∃ before' after' lost, Replaced (some key) item before after before' after' lost ∧
      result.1=before'++(slot++after') ∧ spotAfter before result.2=before'.length := by
  cases hremoval with
  | none hnone =>
    refine ⟨before,after,[],⟨.refl,by simp,fun _ => .inl ?_⟩,rfl,rfl⟩
    intro w hw
    have hstretch : w∈stretch before (slot++after) := by
      rcases mem_append.mp hw with hw | hw
      · exact mem_append_left _ hw
      refine mem_append_right _ ?_
      rw [takeWhile_append_of_pos fun x hx => by simp [(hslot x hx).1]]
      exact mem_append_right _ hw
    simpa using hnone w hstretch
  | behind hsplit hw hnone =>
    subst hsplit
    have hkey := of_decide_eq_true hw
    refine ⟨_,after,[_],⟨.behind .refl ?_ ?_,?_,?_⟩,rfl,?_⟩
    · exact (hformed _ (by simp)).not_divides (by rw [hkey]; rfl)
    · exact fun x hx => hnone x (mem_cons_of_mem _ hx)
    · intro w hw
      obtain rfl := mem_singleton.mp hw
      exact ⟨mem_stretch_behind hnone,.inl ⟨rfl,hkey⟩⟩
    · exact fun _ => .inr ⟨_,mem_singleton_self _,hkey⟩
    · simp only [spotAfter,elim_some,length_append,length_cons]
      rw [if_pos (by omega)]
      omega
  | @ahead older w newer hsplit hw hnone =>
    have hkey := of_decide_eq_true hw
    -- What holds the spot has no key, so the entry found lies behind it.
    obtain ⟨near,rfl,rfl⟩ : ∃ near, older=slot++near ∧ after=near++w::newer := by
      rcases append_eq_append_iff.mp hsplit with ⟨near,hslotEq,hafter⟩ | ⟨near,holder,hafter⟩
      · exact ⟨near,hslotEq,hafter⟩
      cases near with
      | nil => exact ⟨[],by simpa using holder.symm,by simpa using hafter.symm⟩
      | cons x near =>
        obtain ⟨rfl,_⟩ := cons.inj hafter
        have hnot := (hslot w (by rw [holder]; simp)).2
        rw [hkey] at hnot
        cases hnot
    refine ⟨before,near++newer,[w],⟨.ahead .refl ?_ ?_,?_,?_⟩,by simp,?_⟩
    · exact (hformed w (by simp)).not_divides (by rw [hkey]; rfl)
    · exact fun x hx => hnone x (by simp [hx])
    · intro x hx
      obtain rfl := mem_singleton.mp hx
      refine ⟨mem_stretch_ahead ?_,.inl ⟨rfl,hkey⟩⟩
      intro y hy
      refine hnone y ?_
      rw [append_assoc]
      exact mem_append_right _ hy
    · exact fun _ => .inr ⟨w,mem_singleton_self _,hkey⟩
    · simp only [spotAfter,elim_some]
      rw [if_neg (by omega)]

/-- The removal of the client focus a foreground change at the back takes out. -/
theorem replaced_client {window : Int} {raiser : Nat} {fact : DeliveredFact}
    {change : Option WinEventStamp} {behind : List Waiting} (hformed : ∀ w∈behind, w.Formed)
    (hstretch : ∀ w∈stretch behind [], w∈stretch before [])
    (h : Replaced (some (.foreground window raiser)) (.fact fact change) before [] behind [] lost)
    (hremoval : Removal (clientFocus window raiser change) behind [] result) :
    ∃ left lost, result.1=left ∧
      Replaced (some (.foreground window raiser)) (.fact fact change) before [] left [] lost := by
  cases hremoval with
  | none _ => exact ⟨behind,lost,by simp,h⟩
  | @behind older w newer hsplit hw hnone =>
    subst hsplit
    have hkey : w.key.isSome=true := by
      have hkey := (and_eq_true _ _ ▸ hw).1
      rw [of_decide_eq_true hkey]
      rfl
    refine ⟨older++newer,w::lost,by simp,⟨.behind h.edited ?_ ?_,?_,?_⟩⟩
    · exact (hformed w (by simp)).not_divides hkey
    · exact fun x hx => hnone x (mem_cons_of_mem _ hx)
    · intro x hx
      rcases mem_cons.mp hx with rfl | hx
      · exact ⟨hstretch x (mem_stretch_behind hnone),.inr ⟨window,raiser,fact,change,rfl,rfl,hw⟩⟩
      · exact h.displaced x hx
    · intro hkey
      refine (h.sole hkey).imp_right ?_
      rintro ⟨x,hx,hkey⟩
      exact ⟨x,mem_cons_of_mem _ hx,hkey⟩
  | ahead hsplit _ _ => simp at hsplit

theorem replaceKeyed_back {waiting : List Waiting} (hformed : ∀ w∈waiting, w.Formed)
    (key : Option Key) (item : Item) :
    ∃ left lost, Replaced key item waiting [] left [] lost ∧
      (replaceKeyed waiting key item none).1=left ∧
      (replaceKeyed waiting key item none).2.1=none := by
  cases key with
  | none => exact ⟨waiting,[],⟨.refl,by simp,by simp⟩,rfl,rfl⟩
  | some key =>
    have hremoval := removeWaiting_removal (fun w => w.key=some key) waiting ([]++[])
    obtain ⟨left,after,lost,hreplaced,hleft,_⟩ :=
      replaced_of_removal item [] (by simpa using hformed) (by simp) hremoval
    obtain rfl := eq_nil_iff_forall_not_mem.mpr
      fun w hw => not_mem_nil ((edited_subset hreplaced.edited).2 w hw)
    have hplace : (replaceKeyed waiting (some key) item none).2.1=none := by
      unfold replaceKeyed
      simp only
      split <;> rfl
    have hkeyed : (removeKeyed waiting key waiting.length).1=left := by
      simpa [removeKeyed] using hleft
    by_cases hforeground : ∃ window raiser fact change,
        key=.foreground window raiser ∧ item=.fact fact change
    · obtain ⟨window,raiser,fact,change,rfl,rfl⟩ := hforeground
      have hclient := removeWaiting_removal (clientFocus window raiser change) left []
      rw [append_nil] at hclient
      obtain ⟨left',lost',hleft',hreplaced'⟩ := replaced_client
        (fun w hw => hformed w (((edited_subset hreplaced.edited).1 w hw).resolve_right (by simp)))
        (stretch_of_edited hreplaced.edited) hreplaced hclient
      refine ⟨left',lost',hreplaced',?_,hplace⟩
      rw [← hleft',← hkeyed]
      rfl
    · refine ⟨left,lost,hreplaced,?_,hplace⟩
      rw [← hkeyed]
      unfold replaceKeyed
      simp only [getD_none]
      split
      · exact absurd ⟨_,_,_,_,rfl,rfl⟩ hforeground
      · rfl

theorem replaceKeyed_slot {marker : Waiting} (hformed : ∀ w∈before++marker::after, w.Formed)
    (hmarker : marker.marker.isSome=true) {key : Option Key}
    (hkey : ∀ window raiser, key≠some (.foreground window raiser)) (item : Item) :
    ∃ before' after' lost, Replaced key item before after before' after' lost ∧
      (replaceKeyed (before++marker::after) key item (some before.length)).1 =
        before'++marker::after' ∧
      (replaceKeyed (before++marker::after) key item (some before.length)).2.1 =
        some before'.length := by
  cases key with
  | none => exact ⟨before,after,[],⟨.refl,by simp,by simp⟩,rfl,rfl⟩
  | some key =>
    have hslot := (hformed marker (by simp)).of_marker hmarker
    have hremoval := removeWaiting_removal (fun w => w.key=some key) before ([marker]++after)
    obtain ⟨before',after',lost,hreplaced,hleft,hspot⟩ :=
      replaced_of_removal item [marker] (fun w hw => hformed w (by
          rcases mem_append.mp hw with hw | hw
          · exact mem_append_left _ hw
          · exact mem_append_right _ (mem_cons_of_mem _ hw)))
        (by simpa using ⟨hslot.2,hslot.1⟩) hremoval
    simp only [singleton_append] at hleft hspot
    refine ⟨before',after',lost,hreplaced,?_,?_⟩
    · rw [← hleft]
      unfold replaceKeyed
      simp only [getD_some]
      split
      · exact absurd rfl (hkey _ _)
      · rfl
    · rw [← hspot]
      unfold replaceKeyed removeKeyed
      simp only [getD_some]
      cases hremoved : (removeWaiting (before++marker::after) before.length
          fun w => w.key=some key).2 with
      | none | some removed => simp [spotAfter]

end Edit

section Push

/-- Whether the fact is one the listener's reading thread passes behind a marker. -/
def DeliveredFact.isPassed : DeliveredFact → Bool
  | .uiaSelection _ _ _ | .uiaNotification _ _ _ => true
  | _ => false

def Entry.proper (entry : Entry) : Bool :=
  match entry.item with
  | .fact (.uiaMarked _ fact) _ => fact.isPassed
  | _ => true

variable (s : Intake) (entry : Entry) (marks : Marks)

namespace Intake

def asQueued : Entry := (s.applyGapOutcome (unmarked entry).1).2.1

def resolves : Option Nat :=
  resolvedBy (s.asQueued entry) ((unmarked entry).2.or (s.applyGapOutcome (unmarked entry).1).2.2)

def gapAfter : GapRecord := (s.applyGapOutcome (unmarked entry).1).1.gap

def queuedWaiting : Waiting :=
  ⟨(classify (unmarked entry).1.item).1,(classify (unmarked entry).1.item).2.1,
    raiserOf (unmarked entry).1.item,markerOf (s.asQueued entry),s.asQueued entry⟩

def requeued : List Waiting :=
  let place := (s.resolves entry).bind
    fun resolves => s.waiting.findIdx? fun w => w.marker=some resolves
  let replaced := replaceKeyed s.waiting (s.queuedWaiting entry).key (s.asQueued entry).item place
  let moved := moveAhead replaced.1 replaced.2.1 (enteredFrom (s.asQueued entry).item marks)
  settle moved.1 (s.queuedWaiting entry) moved.2

theorem applyGapOutcome_fst (entry : Entry) :
    (s.applyGapOutcome entry).1={s with gap := (s.applyGapOutcome entry).1.gap} := by
  unfold applyGapOutcome
  split
  · split
    split <;> rfl
  · rfl

theorem applyGapOutcome_cases (entry : Entry) :
    ((s.applyGapOutcome entry).2=(entry,none)) ∨ ∃ marker focus stamp window stampUs,
      entry.item=.fact (.uiaFocusDropped marker focus true) stamp ∧
      (s.applyGapOutcome entry).2 =
        ({entry with item := .gapRead window, observedAtUs := stampUs},some marker) := by
  unfold applyGapOutcome
  split
  next marker focus stamp hitem =>
    simp only
    split
    · exact .inl rfl
    next read _ => exact .inr ⟨marker,focus,stamp,read.window,read.stampUs,hitem,rfl⟩
  · exact .inl rfl

theorem asQueued_trace : (s.asQueued entry).trace=entry.trace := by
  have hunmarked : (unmarked entry).1.trace=entry.trace := by
    unfold unmarked
    split <;> rfl
  unfold asQueued
  rcases s.applyGapOutcome_cases (unmarked entry).1 with h | ⟨_,_,_,_,_,_,h⟩
  · rw [h]
    exact hunmarked
  · rw [h]
    exact hunmarked

theorem queuedWaiting_formed : (s.queuedWaiting entry).Formed := by
  have hclass : classify (s.asQueued entry).item=classify (unmarked entry).1.item := by
    unfold asQueued
    rcases s.applyGapOutcome_cases (unmarked entry).1 with h | ⟨_,_,_,_,_,hitem,h⟩
    · rw [h]
    · rw [h,hitem]
      rfl
  exact ⟨by rw [queuedWaiting,hclass],by rw [queuedWaiting,hclass],rfl⟩

end Intake

/-- Where a push puts its entry: in the place of the first marker it resolves, or at the back. -/
inductive Spot (waiting : List Waiting) :
    Option Nat → List Waiting → List Waiting → List Waiting → Prop where
  | back {resolves} (hnone : ∀ n, resolves=some n → ∀ w∈waiting, w.marker≠some n) :
      Spot waiting resolves waiting [] []
  | slot {n before marker after} (hsplit : waiting=before++marker::after)
      (hmarker : marker.marker=some n) (hfirst : ∀ w∈before, w.marker≠some n) :
      Spot waiting (some n) before [marker] after

namespace Spot

variable {waiting before slot after : List Waiting} {resolves : Option Nat}
variable (h : Spot waiting resolves before slot after)
include h

theorem waiting_eq : waiting=before++(slot++after) := by
  cases h with
  | back _ => simp
  | slot hsplit _ _ => simpa using hsplit

theorem cases :
    (before=waiting ∧ slot=[] ∧ after=[] ∧ ∀ n, resolves=some n → ∀ w∈waiting, w.marker≠some n) ∨
    ∃ n marker, resolves=some n ∧ slot=[marker] ∧ waiting=before++marker::after ∧
      marker.marker=some n ∧ ∀ w∈before, w.marker≠some n := by
  cases h with
  | back hnone => exact .inl ⟨rfl,rfl,rfl,hnone⟩
  | slot hsplit hmarker hfirst => exact .inr ⟨_,_,rfl,rfl,hsplit,hmarker,hfirst⟩

theorem slot_marker : ∀ w∈slot, w.marker.isSome=true := by
  cases h with
  | back _ => simp
  | slot _ hmarker _ => simp [hmarker]

end Spot

variable {s entry}

/-- What takes a marker's place is no foreground change, no marker and no idle query. -/
theorem resolves_some (hproper : entry.proper=true) {n : Nat}
    (hresolves : s.resolves entry=some n) :
    (∀ window raiser, (s.queuedWaiting entry).key≠some (.foreground window raiser)) ∧
      (s.queuedWaiting entry).divides=false := by
  rcases s.applyGapOutcome_cases (unmarked entry).1 with h | ⟨_,_,_,_,_,hitem,h⟩
  · rcases entry with ⟨item,trace,observedAtUs,front⟩
    unfold resolves asQueued at hresolves
    unfold queuedWaiting asQueued
    rw [h] at hresolves ⊢
    rcases item with _ | _ | ⟨fact,stamp⟩ | _ | _ | _ | _ | _ | _
    case fact =>
      cases fact with
      | uiaMarked marker fact =>
        cases fact <;> cases hproper <;>
          simp [unmarked,classify,classifyFact,notificationKey,divides,
            isBarrier,Item.isBarrier,markerOf]
      | uiaFocusRead marker read focus =>
        simp [unmarked,classify,classifyFact,divides,isBarrier,Item.isBarrier,markerOf]
      | _ => cases hresolves
    all_goals cases hresolves
  · unfold queuedWaiting asQueued
    rw [h,hitem]
    simp [classify,classifyFact,divides,isBarrier,Item.isBarrier,markerOf]

theorem requeued_spec (hformed : ∀ w∈s.waiting, w.Formed) (hproper : entry.proper=true) :
    ∃ before slot after before' after' lost,
      Spot s.waiting (s.resolves entry) before slot after ∧
      Replaced (s.queuedWaiting entry).key (s.asQueued entry).item before after before' after'
        lost ∧
      s.requeued entry marks=before'++s.queuedWaiting entry::after' := by
  unfold requeued
  cases hplace : (s.resolves entry).bind
      (fun resolves => s.waiting.findIdx? fun w => w.marker=some resolves) with
  | none =>
    obtain ⟨left,lost,hreplaced,hleft,hnone⟩ := replaceKeyed_back hformed
      (s.queuedWaiting entry).key (s.asQueued entry).item
    refine ⟨s.waiting,[],[],left,[],lost,.back ?_,hreplaced,?_⟩
    · intro n hn w hw
      rw [hn,bind_some] at hplace
      simpa using findIdx?_eq_none_iff.mp hplace w hw
    · simp only [hleft,hnone]
      rfl
  | some place =>
    obtain ⟨n,hresolves,hfind⟩ := bind_eq_some_iff.mp hplace
    obtain ⟨before,marker,after,hsplit,rfl,hmarker,hfirst⟩ := findIdx?_split hfind
    have hmarker : marker.marker=some n := by simpa using hmarker
    rw [hsplit] at hformed ⊢
    obtain ⟨before',after',lost,hreplaced,hleft,hspot⟩ := replaceKeyed_slot hformed
      (by rw [hmarker]; rfl) (resolves_some hproper hresolves).1 (s.asQueued entry).item
    simp only [hleft,hspot]
    rw [hresolves]
    have hslot : Spot (before++marker::after) (some n) before [marker] after :=
      .slot rfl hmarker fun w hw => by simpa using hfirst w hw
    cases hentered : enteredFrom (s.asQueued entry).item marks with
    | none =>
      refine ⟨before,[marker],after,before',after',lost,hslot,hreplaced,?_⟩
      simp [moveAhead,settle]
    | some old =>
      obtain ⟨segment,rest,rfl,hnone,hmoved⟩ := oldFocusEventsFirst_eq old before' marker after'
      refine ⟨before,[marker],after,_,_,lost,hslot,
        ⟨.move (ofOldFocus old) hreplaced.edited hnone,hreplaced.displaced,hreplaced.sole⟩,?_⟩
      simp only [moveAhead,hmoved,settle]
      rw [if_pos (by simp),set_split]

end Push

end Verbatim.Outpost
