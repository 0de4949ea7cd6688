import Verbatim.Outpost.Hold
import Mathlib.Data.List.FinRange

namespace Verbatim.Outpost

open List Hold

/-- An event of a forwarded kind, with the listener's copy of it and the hook's. -/
structure Event where
  time : UInt32
  listener : Entry
  hook : Entry
  listened : forwardedTime listener=some time
  hooked : forwardedTime hook=some time

abbrev Unforwarded := {entry : Entry // forwardedTime entry=none}

/-- What reaches the outpost's reducer during the hand-over of `n` events: the listener's copies
and its end, the hook's install, its copies and its other entries. -/
inductive Arrival (n : Nat) where
  | listener (i : Fin n)
  | ended
  | hooked
  | copy (i : Fin n)
  | other (entry : Unforwarded)

namespace Arrival

variable {n : Nat}

def listened : Arrival n → Option (Fin n)
  | .listener i => some i
  | _ => none

def copied : Arrival n → Option (Fin n)
  | .copy i => some i
  | _ => none

def ofListener : Arrival n → Bool
  | .listener _ | .ended => true
  | _ => false

def ofHook (arrival : Arrival n) : Bool := !arrival.ofListener

def unforwarded : Arrival n → Option Unforwarded
  | .other entry => some entry
  | _ => none

def entryOf (event : Fin n → Event) : Arrival n → Option Entry
  | .listener i => some (event i).listener
  | .copy i => some (event i).hook
  | .other entry => some entry.1
  | _ => none

/-- The reducer's input for it, when `last` ends the listener's forwarding. -/
def input (event : Fin n → Event) (last : HoldInput) : Arrival n → HoldInput
  | .listener i => .entry (event i).listener .listener
  | .ended => last
  | .hooked => .hooked
  | .copy i => .entry (event i).hook .hook
  | .other entry => .entry entry.1 .hook

end Arrival

section Runs

variable {n : Nat} (event : Fin n → Event) (last : HoldInput)

def pushedFrom (hold : Hold) (arrivals : List (Arrival n)) : List Entry :=
  hold.pushed (arrivals.map (Arrival.input event last))

variable (arrivals : List (Arrival n))

def entriesOf : List Entry :=
  arrivals.filterMap (Arrival.entryOf event)

theorem pushed_unhooked (listens : List (Fin n)) (rest : List (Arrival n)) :
    pushedFrom event last .unhooked (listens.map .listener++rest) =
      entriesOf event (listens.map .listener)++pushedFrom event last .unhooked rest := by
  induction listens with
  | nil => rfl
  | cons i listens ih => exact congrArg ((event i).listener::·) ih

theorem pushed_over (hended : .ended∉arrivals) :
    pushedFrom event last .over arrivals=entriesOf event arrivals := by
  induction arrivals with
  | nil => rfl
  | cons arrival arrivals ih =>
    have htail := ih fun hmem => hended (mem_cons_of_mem _ hmem)
    cases arrival with
    | ended => exact absurd mem_cons_self hended
    | hooked => exact htail
    | listener i => exact congrArg ((event i).listener::·) htail
    | copy i => exact congrArg ((event i).hook::·) htail
    | other entry => exact congrArg (entry.1::·) htail

def notes (newest : Option UInt32) (time : UInt32) : Option UInt32 :=
  if newest.all (fun newest => tickIsAfter time newest) then some time else newest

def noted (newest : Option UInt32) (arrivals : List (Arrival n)) : Option UInt32 :=
  (arrivals.filterMap Arrival.listened).foldl (fun newest i => notes newest (event i).time) newest

theorem listenerCopy_holding (held : List Entry) (newest : Option UInt32) (i : Fin n) :
    (holding held newest).listenerCopy (event i).listener =
      .holding held (notes newest (event i).time) := by
  simp only [listenerCopy,(event i).listened,notes]
  split <;> rfl

theorem pushed_holding (arrivals rest : List (Arrival n)) (hended : .ended∉arrivals)
    (held : List Entry) (newest : Option UInt32) :
    pushedFrom event last (.holding held newest) (arrivals++rest) =
      entriesOf event (arrivals.filter Arrival.ofListener) ++
        pushedFrom event last (.holding (held++entriesOf event (arrivals.filter Arrival.ofHook))
          (noted event newest arrivals)) rest := by
  induction arrivals generalizing held newest with
  | nil => simp [entriesOf,noted]
  | cons arrival arrivals ih =>
    have htail := ih fun hmem => hended (mem_cons_of_mem _ hmem)
    cases arrival with
    | ended => exact absurd mem_cons_self hended
    | hooked => exact htail held newest
    | listener i =>
      have hstep : pushedFrom event last (.holding held newest)
          ((.listener i::arrivals)++rest)=(event i).listener ::
          pushedFrom event last (.holding held (notes newest (event i).time)) (arrivals++rest) := by
        simp only [pushedFrom,cons_append,map_cons,Arrival.input,pushed,
          input,entry,listenerCopy_holding,nil_append]
      rw [hstep,htail]
      rfl
    | copy i =>
      have hstep := htail (held++[(event i).hook]) newest
      rw [append_assoc] at hstep
      exact hstep
    | other entry =>
      have hstep := htail (held++[entry.1]) newest
      rw [append_assoc] at hstep
      exact hstep

end Runs

section Interleavings

variable {n : Nat}

/-- The arrivals in which the listener's copies `listens` come in order and then its end, and the
hook's install and then its entries `hooks`. -/
structure Interleaves (listens : List (Fin n)) (hooks arrivals : List (Arrival n)) : Prop where
  listener : arrivals.filter Arrival.ofListener=listens.map .listener++[.ended]
  hook : arrivals.filter Arrival.ofHook=.hooked::hooks

variable {listens : List (Fin n)} {hooks arrivals : List (Arrival n)}

theorem filter_ofHook_eq {late : List (Arrival n)}
    (h : ∀ arrival∈late, ¬arrival.ofListener=true) : late.filter Arrival.ofHook=late :=
  filter_eq_self.mpr fun arrival hmem => by simpa [Arrival.ofHook] using h arrival hmem

theorem Interleaves.cases (h : Interleaves listens hooks arrivals) :
    arrivals=listens.map .listener++.ended::.hooked::hooks ∨
      ∃ (early : List (Fin n)) (between late : List (Arrival n)),
        arrivals=early.map .listener++.hooked::(between++.ended::late) ∧
        .ended∉between ∧ .ended∉late ∧
        listens.map .listener=early.map .listener++between.filter Arrival.ofListener ∧
        hooks=between.filter Arrival.ofHook++late := by
  obtain ⟨first,rest,rfl,hfirst,hrest⟩ := filter_eq_append_iff.mp h.listener
  obtain ⟨gap,late,rfl,hgap,-,hlate⟩ := filter_eq_cons_iff.mp hrest
  have hlate := filter_eq_nil_iff.mp hlate
  have hlistens : (first++gap).filter Arrival.ofListener=listens.map .listener := by
    rw [filter_append,hfirst,filter_eq_nil_iff.mpr hgap,append_nil]
  have hended : .ended∉first++gap := by
    intro hmem
    have hmem : .ended∈(first++gap).filter Arrival.ofListener := mem_filter.mpr ⟨hmem,rfl⟩
    rw [hlistens] at hmem
    simp at hmem
  have hhooks : (first++gap).filter Arrival.ofHook++late=.hooked::hooks := by
    rw [← h.hook,← append_assoc,filter_append (first++gap),filter_cons,filter_ofHook_eq hlate]
    rfl
  rw [← append_assoc]
  generalize first++gap=before at hlistens hended hhooks
  cases hbefore : before.filter Arrival.ofHook with
  | nil =>
    rw [hbefore,nil_append] at hhooks
    have hall : before.filter Arrival.ofListener=before := by
      refine filter_eq_self.mpr fun arrival hmem => ?_
      simpa [Arrival.ofHook] using filter_eq_nil_iff.mp hbefore arrival hmem
    exact Or.inl (by rw [← hall,hlistens,hhooks])
  | cons install between =>
    rw [hbefore,cons_append] at hhooks
    obtain ⟨rfl,htail⟩ := cons.inj hhooks
    obtain ⟨start,between,rfl,hstart,-,rfl⟩ := filter_eq_cons_iff.mp hbefore
    have hall : start.filter Arrival.ofListener=start := by
      refine filter_eq_self.mpr fun arrival hmem => ?_
      simpa [Arrival.ofHook] using hstart arrival hmem
    rw [filter_append,hall,filter_cons] at hlistens
    obtain ⟨early,later,-,rfl,-⟩ := map_eq_append_iff.mp hlistens.symm
    refine Or.inr ⟨early,between,late,by simp,?_,?_,hlistens.symm,htail.symm⟩
    · exact fun hmem => hended (mem_append_right _ (mem_cons_of_mem _ hmem))
    · exact fun hmem => hlate _ hmem rfl

end Interleavings

section Ends

variable {n : Nat} (event : Fin n → Event) {listens : List (Fin n)}
  {hooks arrivals : List (Arrival n)}
variable (through : Option UInt32)

/-- Whether the hold, released through `through`, keeps what the hook delivered. -/
def keeps (arrival : Arrival n) : Bool :=
  arrival.copied.all fun i => through.all fun through => tickIsAfter (event i).time through

theorem entriesOf_append (first second : List (Arrival n)) :
    entriesOf event (first++second)=entriesOf event first++entriesOf event second :=
  filterMap_append

theorem released_eq (held : List (Arrival n)) (hheld : ∀ arrival∈held, arrival.ofHook=true) :
    (entriesOf event held).filter (releases through) =
      entriesOf event (held.filter (keeps event through)) := by
  induction held with
  | nil => rfl
  | cons arrival held ih =>
    have htail := ih fun other hmem => hheld other (mem_cons_of_mem _ hmem)
    cases arrival with
    | listener i | ended => exact nomatch hheld _ mem_cons_self
    | hooked => exact htail
    | copy i =>
      have hsame : releases through (event i).hook=keeps event through (.copy i) := by
        simp [releases,keeps,Arrival.copied,(event i).hooked]
      simp only [entriesOf,filterMap_cons,Arrival.entryOf,filter_cons,hsame]
      split
      · exact congrArg ((event i).hook::·) htail
      · exact htail
    | other entry =>
      have hkept : releases through entry.1=true := by
        simp [releases,entry.2]
      simp only [entriesOf,filterMap_cons,Arrival.entryOf,filter_cons,hkept]
      exact congrArg (entry.1::·) htail

/-- The whole run, when the hook is in before the forwarding ends. -/
theorem pushed_between (last : HoldInput) (early : List (Fin n)) (between late : List (Arrival n))
    (hbetween : .ended∉between) (hlate : .ended∉late)
    (hover : ∀ held newest, ((holding held newest).input last).1=.over) :
    pushedFrom event last .unhooked (early.map .listener++.hooked::(between++.ended::late)) =
      entriesOf event (early.map .listener++between.filter Arrival.ofListener) ++
        (((holding (entriesOf event (between.filter Arrival.ofHook))
          (noted event none between)).input last).2++entriesOf event late) := by
  have hinstall : pushedFrom event last .unhooked (.hooked::(between++.ended::late)) =
      pushedFrom event last (.holding [] none) (between++.ended::late) := rfl
  have hend : ∀ held newest, pushedFrom event last (.holding held newest) (.ended::late) =
      ((holding held newest).input last).2++entriesOf event late := by
    intro held newest
    rw [← pushed_over event last late hlate,← hover held newest]
    rfl
  rw [pushed_unhooked,hinstall,pushed_holding event last between _ hbetween,hend,
    entriesOf_append,append_assoc,nil_append]

theorem filterMap_copied (arrivals : List (Arrival n)) :
    (arrivals.filter (keeps event through)).filterMap Arrival.copied =
      (arrivals.filterMap Arrival.copied).filter
        fun i => through.all fun through => tickIsAfter (event i).time through := by
  induction arrivals with
  | nil => rfl
  | cons arrival arrivals ih =>
    cases arrival with
    | copy i =>
      cases hkept : through.all (fun through => tickIsAfter (event i).time through) <;>
        simp [keeps,Arrival.copied,hkept,← ih]
    | _ => exact ih

theorem filterMap_unforwarded (arrivals : List (Arrival n)) :
    (arrivals.filter (keeps event through)).filterMap Arrival.unforwarded =
      arrivals.filterMap Arrival.unforwarded := by
  induction arrivals with
  | nil => rfl
  | cons arrival arrivals ih =>
    cases arrival with
    | copy i =>
      simp only [filter_cons]
      split <;> exact ih
    | other entry => exact congrArg (entry::·) ih
    | _ => exact ih

theorem handed_once (through : UInt32) {copies : List (Fin n)} {k : Nat}
    (hlistens : listens.Perm ((finRange n).filter fun i => !tickIsAfter (event i).time through))
    (hcopies : copies=(finRange n).drop k)
    (hsuffix : ∀ i∈(finRange n).take k, tickIsAfter (event i).time through=false) :
    (listens++copies.filter fun i => tickIsAfter (event i).time through).Perm (finRange n) := by
  have hafter : copies.filter (fun i => tickIsAfter (event i).time through) =
      (finRange n).filter fun i => tickIsAfter (event i).time through := by
    have hearly : ((finRange n).take k).filter (fun i => tickIsAfter (event i).time through)=[] :=
      filter_eq_nil_iff.mpr (fun i hmem => by simp [hsuffix i hmem])
    conv_rhs => rw [← take_append_drop k (finRange n)]
    rw [filter_append,hearly,hcopies,nil_append]
  rw [hafter]
  refine (hlistens.append_right _).trans (perm_append_comm.trans ?_)
  exact filter_append_perm _ _

/-- The newest copy noted is no older than any handled while the hold lasts. -/
theorem noted_newest {base : UInt32} (hclock : ∀ i, since base (event i).time<2^31)
    (newest : Option UInt32) (hnewest : ∀ time∈newest, since base time<2^31)
    (copies : List (Fin n)) :
    ∀ time, (time∈newest ∨ ∃ i∈copies, (event i).time=time) →
      ∃ last∈copies.foldl (fun newest i => notes newest (event i).time) newest,
        since base last<2^31 ∧ since base time ≤ since base last := by
  induction copies generalizing newest with
  | nil =>
    rintro time (hmem | ⟨i,hmem,-⟩)
    · exact ⟨time,hmem,hnewest time hmem,Nat.le_refl _⟩
    · cases hmem
  | cons i copies ih =>
    have hnoted : ∀ time∈notes newest (event i).time, since base time<2^31 := by
      intro time hmem
      unfold notes at hmem
      split at hmem
      · cases hmem
        exact hclock i
      · exact hnewest time hmem
    -- The copy noted is at least as new as the one just handled and the one noted before.
    have hsteps : ∀ time, (time∈newest ∨ (event i).time=time) →
        ∃ last∈notes newest (event i).time, since base time ≤ since base last := by
      intro time hcases
      cases newest with
      | none =>
        obtain hmem | rfl := hcases
        · cases hmem
        · exact ⟨_,rfl,Nat.le_refl _⟩
      | some before =>
        have hafter := tickIsAfter_iff (hclock i) (hnewest before rfl)
        by_cases hlater : tickIsAfter (event i).time before=true
        · refine ⟨(event i).time,by simp [notes,hlater],?_⟩
          obtain hmem | rfl := hcases
          · cases hmem
            exact Nat.le_of_lt (hafter.mp hlater)
          · exact Nat.le_refl _
        · refine ⟨before,by simp [notes,hlater],?_⟩
          obtain hmem | rfl := hcases
          · cases hmem
            exact Nat.le_refl _
          · exact Nat.le_of_not_lt fun hlt => hlater (hafter.mpr hlt)
    have hrest := ih _ hnoted
    rintro time (hmem | ⟨j,hj,rfl⟩)
    · obtain ⟨last,hlast,hle⟩ := hsteps time (Or.inl hmem)
      obtain ⟨final,hfinal,hbound,hle'⟩ := hrest last (Or.inl hlast)
      exact ⟨final,hfinal,hbound,Nat.le_trans hle hle'⟩
    · obtain rfl | hj := mem_cons.mp hj
      · obtain ⟨last,hlast,hle⟩ := hsteps _ (Or.inr rfl)
        obtain ⟨final,hfinal,hbound,hle'⟩ := hrest last (Or.inl hlast)
        exact ⟨final,hfinal,hbound,Nat.le_trans hle hle'⟩
      · exact hrest _ (Or.inr ⟨j,hj,rfl⟩)

def Near (event : Fin n → Event) : Prop := ∃ base, ∀ i, since base (event i).time<2^31

theorem not_kept_of_noted (hnear : Near event) {between : List (Arrival n)} {i : Fin n}
    (hmem : .listener i∈between) : keeps event (noted event none between) (.copy i)=false := by
  obtain ⟨base,hclock⟩ := hnear
  have hi : i∈between.filterMap Arrival.listened := mem_filterMap.mpr ⟨_,hmem,rfl⟩
  obtain ⟨last,hlast,hbound,hle⟩ := noted_newest event hclock none (fun _ hnone => nomatch hnone)
    (between.filterMap Arrival.listened) (event i).time (Or.inr ⟨i,hi,rfl⟩)
  have hnoted : noted event none between=some last := hlast
  have hafter := tickIsAfter_iff (hclock i) hbound
  simp only [hnoted,keeps,Arrival.copied,Option.all_some]
  exact Bool.eq_false_iff.mpr fun hlater => Nat.not_lt.mpr hle (hafter.mp hlater)

/-- No copy of the hook's comes after the end for an event the listener forwarded. -/
def InTime (arrivals : List (Arrival n)) : Prop :=
  ∀ before after, arrivals=before++.ended::after → ∀ i, .copy i∈after → .listener i∉before

/-- The hook's install comes before the listener's copy of any event the hook delivers. -/
def InstalledFirst (arrivals : List (Arrival n)) : Prop :=
  ∀ before after, arrivals=before++.hooked::after → ∀ i, .listener i∈before → .copy i∉after

variable (h : Interleaves listens hooks arrivals)

include h

theorem Interleaves.ofHook : ∀ arrival∈hooks, arrival.ofHook=true := by
  intro arrival hmem
  have hmem : arrival∈arrivals.filter Arrival.ofHook := by
    rw [h.hook]
    exact mem_cons_of_mem _ hmem
  exact (mem_filter.mp hmem).2

theorem Interleaves.not_ended : .ended∉hooks :=
  fun hmem => nomatch h.ofHook _ hmem

/-- With every copy of what was forwarded in by then, "forwarding ended" leaves the listener's
copies and, of what the hook delivers, all but the copies raised by the tick. -/
theorem pushed_forwardingEnded (through : UInt32)
    (hintime : ∀ before after, arrivals=before++.ended::after →
      ∀ i, .copy i∈after → tickIsAfter (event i).time through=true) :
    pushedFrom event (.forwardingEnded through) .unhooked arrivals =
      entriesOf event (listens.map .listener++hooks.filter (keeps event (some through))) := by
  have hkept : ∀ late : List (Arrival n), (∀ arrival∈late, arrival.ofHook=true) →
      (∀ i, .copy i∈late → tickIsAfter (event i).time through=true) →
      late.filter (keeps event (some through))=late := by
    intro late hlate hafter
    refine filter_eq_self.mpr fun arrival hmem => ?_
    cases arrival with
    | copy i => simpa [keeps,Arrival.copied] using hafter i hmem
    | _ => rfl
  obtain rfl | ⟨early,between,late,rfl,hbetween,hlate,hlistens,rfl⟩ := h.cases
  · have hended : .ended∉(.hooked::hooks : List (Arrival n)) := by
      simpa using h.not_ended
    have hover : pushedFrom event (.forwardingEnded through) .unhooked (.ended::.hooked::hooks) =
        pushedFrom event (.forwardingEnded through) .over (.hooked::hooks) := rfl
    rw [pushed_unhooked,hover,pushed_over event _ _ hended,entriesOf_append,hkept hooks h.ofHook]
    · rfl
    · exact fun i hmem => hintime _ _ rfl i (mem_cons_of_mem _ hmem)
  have hall : ∀ arrival∈between.filter Arrival.ofHook, arrival.ofHook=true :=
    fun arrival hmem => (mem_filter.mp hmem).2
  have hreleased : ∀ held newest,
      ((holding held newest).input (.forwardingEnded through)).2 =
        held.filter (releases (some through)) := fun _ _ => rfl
  rw [pushed_between event _ early between late hbetween hlate fun _ _ => rfl,hreleased,
    released_eq event _ _ hall,filter_append,
    hkept late fun arrival hmem => h.ofHook arrival (mem_append_right _ hmem),
    hlistens,entriesOf_append event _ (_++late),entriesOf_append event _ late]
  refine fun i hmem => hintime (early.map .listener++.hooked::between) late ?_ i hmem
  simp

/-- The end of the listener's reads in place of "forwarding ended": with the hook's install ahead
of the copies of what it delivers, and none of them late, no event is handled twice. -/
theorem pushed_readsEnded {ended : Entry} {stamp : Option WinEventStamp}
    (hended : ended.item=.fact .uiaFocusReadsEnded stamp) (hnear : Near event)
    (hlistens : listens.Nodup)
    (hcopies : (hooks.filterMap Arrival.copied).Nodup) (hinstall : InstalledFirst arrivals)
    (hintime : InTime arrivals) :
    ∃ kept : List (Arrival n), kept.Sublist hooks ∧
      pushedFrom event (.entry ended .other) .unhooked arrivals =
        entriesOf event (listens.map .listener)++ended::entriesOf event kept ∧
      (listens++kept.filterMap Arrival.copied).Nodup := by
  obtain rfl | ⟨early,between,late,rfl,hbetween,hlate,hsplit,rfl⟩ := h.cases
  · -- The hook's copies are held, with nobody left to end the hold.
    refine ⟨[],nil_sublist _,?_,by simpa using hlistens⟩
    have hends : pushedFrom event (.entry ended .other) .unhooked (.ended::.hooked::hooks) =
        ended::pushedFrom event (.entry ended .other) (.holding [] none) (hooks++[]) := by
      simp [pushedFrom,Arrival.input,pushed,input,entry,hended,readsEnded,hooked]
    have hnone : hooks.filter Arrival.ofListener=[] :=
      filter_eq_nil_iff.mpr (fun arrival hmem => by
        simpa [Arrival.ofHook] using h.ofHook arrival hmem)
    rw [pushed_unhooked,hends,pushed_holding event _ hooks [] h.not_ended,hnone]
    rfl
  have hends : ∀ held newest, (holding held newest).input (.entry ended .other) =
      (.over,ended::held.filter (releases newest)) := by
    intro held newest
    simp [input,entry,hended,readsEnded,release]
  let kept := (between.filter Arrival.ofHook).filter (keeps event (noted event none between))
  have hkept : (kept++late).Sublist (between.filter Arrival.ofHook++late) :=
    filter_sublist.append (List.Sublist.refl _)
  refine ⟨kept++late,hkept,?_,?_⟩
  · rw [pushed_between event _ early between late hbetween hlate
      (fun held newest => by rw [hends]),hends,
      released_eq event _ _ fun arrival hmem => (mem_filter.mp hmem).2,hsplit,
      entriesOf_append event kept late]
    rfl
  · refine nodup_append.mpr ⟨hlistens,hcopies.sublist (hkept.filterMap _),?_⟩
    rintro i hi j hj rfl
    have hmem : .listener i∈early.map .listener++between.filter Arrival.ofListener := by
      rw [← hsplit]
      exact mem_map_of_mem hi
    obtain ⟨arrival,hj,hcopy⟩ := mem_filterMap.mp hj
    cases arrival with
    | copy j =>
      cases hcopy
      obtain hj | hj := mem_append.mp hj
      · obtain ⟨hj,hkeeps⟩ := mem_filter.mp hj
        obtain hmem | hmem := mem_append.mp hmem
        · exact hinstall _ _ rfl i hmem (mem_append_left _ (mem_filter.mp hj).1)
        · rw [not_kept_of_noted event hnear (mem_filter.mp hmem).1] at hkeeps
          cases hkeeps
      · refine hintime (early.map .listener++.hooked::between) late (by simp) i hj ?_
        obtain hmem | hmem := mem_append.mp hmem
        · exact mem_append_left _ hmem
        · exact mem_append_right _ (mem_cons_of_mem _ (mem_filter.mp hmem).1)
    | _ => cases hcopy

theorem Interleaves.listener_before {before after : List (Arrival n)}
    (hsplit : arrivals=before++.ended::after) {i : Fin n} (hi : i∈listens) :
    .listener i∈before := by
  have hlistener := h.listener
  rw [hsplit,filter_append,filter_cons] at hlistener
  have hmem : .listener i∈before.filter Arrival.ofListener := by
    -- The listener's end comes once, so all of its copies are ahead.
    obtain ⟨more,hmore,hrest⟩ | ⟨more,hmore,-⟩ := append_eq_append_iff.mp hlistener
    · cases more with
      | nil =>
        rw [append_nil] at hmore
        rw [← hmore]
        exact mem_map_of_mem hi
      | cons arrival more =>
        obtain ⟨rfl,-⟩ := cons.inj hrest
        have hended : .ended∈listens.map (Arrival.listener) := by simp [hmore]
        simp at hended
    · rw [hmore]
      exact mem_append_left _ (mem_map_of_mem hi)
  exact (mem_filter.mp hmem).1

end Ends

section Once

variable {n : Nat}

/-- The hand-over hands each event to the intake once. When the listener forwards exactly the
events raised at or before `through` and then ends its forwarding, and the hook, its install
first, delivers a suffix of the events with all those raised after `through` and none of those
forwarded after that end, each event is handed over by exactly one of its copies, no entry of
another kind is dropped, and the hook's stay in its order. When the listener's reads end instead,
and the hook's install came before the copies of what it delivers, no event is handed over
twice. -/
theorem handOver_hands_once (event : Fin n → Event) (hnear : Near event)
    {listens : List (Fin n)} {hooks arrivals : List (Arrival n)} {k : Nat}
    (h : Interleaves listens hooks arrivals)
    (hcopies : hooks.filterMap Arrival.copied=(finRange n).drop k)
    (hintime : InTime arrivals) :
    (∀ through : UInt32,
      listens.Perm ((finRange n).filter fun i => !tickIsAfter (event i).time through) →
      (∀ i : Fin n, tickIsAfter (event i).time through=true → k ≤ i) →
      ∃ kept : List (Arrival n), kept.Sublist hooks ∧
        pushedFrom event (.forwardingEnded through) .unhooked arrivals =
          entriesOf event (listens.map .listener++kept) ∧
        (listens++kept.filterMap Arrival.copied).Perm (finRange n) ∧
        kept.filterMap Arrival.unforwarded=hooks.filterMap Arrival.unforwarded) ∧
    ∀ (ended : Entry) (stamp : Option WinEventStamp),
      ended.item=.fact .uiaFocusReadsEnded stamp → listens.Nodup → InstalledFirst arrivals →
      ∃ kept : List (Arrival n), kept.Sublist hooks ∧
        pushedFrom event (.entry ended .other) .unhooked arrivals =
          entriesOf event (listens.map .listener)++ended::entriesOf event kept ∧
        (listens++kept.filterMap Arrival.copied).Nodup := by
  constructor
  · intro through hlistens hsuffix
    refine ⟨hooks.filter (keeps event (some through)),filter_sublist,?_,?_,
      filterMap_unforwarded event _ hooks⟩
    · refine pushed_forwardingEnded event h through (fun before after hsplit i hmem => ?_)
      by_contra hearly
      have hi : i∈listens := hlistens.mem_iff.mpr (mem_filter.mpr
        ⟨mem_finRange i,by simpa using hearly⟩)
      exact hintime before after hsplit i hmem (h.listener_before hsplit hi)
    · rw [filterMap_copied]
      refine handed_once event through hlistens hcopies fun i hmem => ?_
      refine Bool.eq_false_iff.mpr fun hafter => ?_
      obtain ⟨j,hj,hi⟩ := mem_take_iff_getElem.mp hmem
      have hle := hsuffix i hafter
      rw [← hi,getElem_finRange] at hle
      simp only [Fin.val_cast] at hle
      omega
  · intro ended stamp hended hlistens hinstall
    refine pushed_readsEnded event h hended hnear hlistens ?_ hinstall hintime
    rw [hcopies]
    exact (nodup_finRange n).sublist (drop_sublist _ _)

def focusAt (child : Int) (time : UInt32) : Event where
  time := time
  listener := ⟨.fact (.msaaFocus 7 (-4) child) (some ⟨3,time⟩),1,0,.untested⟩
  hook := ⟨.fact (.msaaFocus 7 (-4) child) (some ⟨3,time⟩),2,0,.untested⟩
  listened := rfl
  hooked := rfl

/-- The end of the listener's reads, as the supervisor delivers it. -/
def endOfReads : Entry := ⟨.fact .uiaFocusReadsEnded none,3,0,.untested⟩

def acrossWrap (i : Fin 2) : Event := if i=0 then focusAt 1 4294967290 else focusAt 2 5

def valueChanged : Unforwarded := ⟨⟨.msaa .valueChange 7 (-4) 0 3,4,0,.untested⟩,rfl⟩

/-- Across the wrap, the first event is handed over by the listener's copy and the second by the
hook's. -/
theorem acrossWrap_handed_once :
    ∃ kept : List (Arrival 2), kept.Sublist [.copy 0,.other valueChanged,.copy 1] ∧
      pushedFrom acrossWrap (.forwardingEnded 4294967290) .unhooked
        [.hooked,.listener 0,.copy 0,.other valueChanged,.ended,.copy 1] =
          entriesOf acrossWrap ([0].map .listener++kept) ∧
      ([0]++kept.filterMap Arrival.copied).Perm (finRange 2) := by
  have hnear : Near acrossWrap := ⟨4294967290,by decide⟩
  have hinterleaves : Interleaves [(0 : Fin 2)] [.copy 0,.other valueChanged,.copy 1]
      [.hooked,.listener 0,.copy 0,.other valueChanged,.ended,.copy 1] := ⟨rfl,rfl⟩
  have hintime : InTime [.hooked,.listener (0 : Fin 2),.copy 0,.other valueChanged,.ended,
      .copy 1] := by
    intro before after hsplit i hcopy hlistener
    simp [cons_eq_append_iff] at hsplit
    obtain ⟨rfl,rfl⟩ := hsplit
    simp only [mem_cons,not_mem_nil,or_false,Arrival.copy.injEq] at hcopy
    rw [hcopy] at hlistener
    simp at hlistener
  obtain ⟨kept,hsublist,hpushed,honce,-⟩ :=
    (handOver_hands_once (k := 0) acrossWrap hnear hinterleaves (by decide) hintime).1 4294967290
      (by decide) (by decide)
  exact ⟨kept,hsublist,hpushed,honce⟩

/-- A copy of the hook's that comes after the end of the forwarding is handed over beside the
listener's; so is a copy the listener forwarded before the hook's install, when its reads end. -/
theorem lateCopy_handed_twice :
    (tickIsAfter (focusAt 1 100).time 100=false ∧
      Interleaves [0] [.copy 0] [.hooked,.listener 0,.ended,.copy (0 : Fin 1)] ∧
      pushedFrom (fun _ => focusAt 1 100) (.forwardingEnded 100) .unhooked
        [.hooked,.listener 0,.ended,.copy (0 : Fin 1)] =
        [(focusAt 1 100).listener,(focusAt 1 100).hook]) ∧
    Interleaves [0] [.copy 0] [.listener 0,.hooked,.copy (0 : Fin 1),.ended] ∧
      pushedFrom (fun _ => focusAt 1 100) (.entry endOfReads .other) .unhooked
        [.listener 0,.hooked,.copy (0 : Fin 1),.ended] =
        [(focusAt 1 100).listener,endOfReads,(focusAt 1 100).hook] :=
  ⟨⟨rfl,⟨rfl,rfl⟩,rfl⟩,⟨rfl,rfl⟩,rfl⟩

end Once

end Verbatim.Outpost
