import Verbatim.Framework.Machine
import Verbatim.Outbound.Release
import Mathlib.Data.List.Count

namespace Verbatim.Outbound

open List Pending Nat

variable {D : Type}

section Reports

theorem foldl_countWaiting (touched : List Carried) (reported : Carried → Option Report)
    (carried : Carried) :
    touched.foldl countWaiting reported carried =
      if carried∈touched then
        some ⟨((reported carried).getD {}).position,
          ((reported carried).getD {}).waiting+touched.count carried⟩
      else reported carried := by
  induction touched generalizing reported with
  | nil => rfl
  | cons first touched ih =>
    rw [foldl_cons,ih]
    by_cases same : carried=first
    · subst same
      by_cases again : carried∈touched
      · simp [again,countWaiting]
        omega
      · simp [again,countWaiting,count_eq_zero_of_not_mem again]
    · simp [countWaiting,same,Ne.symm same]

theorem foldl_countWritten (position : Nat) (touched : List Carried)
    (reported : Carried → Option Report) (carried : Carried) :
    touched.foldl (countWritten position) reported carried =
      if carried∈touched then
        (reported carried).map (fun report => ⟨position,report.waiting-touched.count carried⟩)
      else reported carried := by
  induction touched generalizing reported with
  | nil => rfl
  | cons first touched ih =>
    rw [foldl_cons,ih]
    by_cases same : carried=first
    · subst same
      cases was : reported carried with
      | none => simp [countWritten,was]
      | some report =>
        by_cases again : carried∈touched
        · simp [again,countWritten,was]
          omega
        · simp [again,countWritten,was,count_eq_zero_of_not_mem again]
    · simp [countWritten,same,Ne.symm same]

variable {M K : Type} [Merge M K] [DecidableEq K]

theorem waitingOf_queued (carried : Carried) (queue : List (Waiting M)) (message : M)
    (touched : List Carried) :
    waitingOf carried (queued queue message touched) =
      waitingOf carried queue+touched.count carried := by
  rcases queued_cases queue message touched with
    last | ⟨key,before,older,olderTouched,after,across,split,-,-,-,-,merged⟩
  · simp [waitingOf,last,Waiting.touched]
  rw [merged,split]
  simp only [waitingOf,flatMap_append,flatMap_cons,flatMap_nil,Waiting.touched,
    count_append,append_nil]
  omega

end Reports

def carryingIn (frames : List (Frame D)) : Nat :=
  frames.countP fun frame => frame.message.carriesNodes

/-- The positions of both sides: the outpost's count is of the frames that carry nodes and of those
skipped, Core's of the frames that carry nodes among those it handled. -/
structure Placed (w : World D) : Prop where
  total : w.pending.position=carryingIn w.frames+w.skipped
  frame : ∀ i frame,w.frames[i]?=some frame →
    frame.position=carryingIn (w.frames.take (i+1))+frame.skipped ∧ frame.skipped≤w.skipped
  handled : w.arrived.length≤w.frames.length
  position : w.position=carryingIn (w.frames.take w.arrived.length)
  arrived : ∀ i position,w.arrived[i]?=some position → position=carryingIn (w.frames.take (i+1))
  list : ∀ list∈w.lists,list.handled≤w.arrived.length ∧
    list.acknowledged=carryingIn (w.frames.take list.handled)

theorem Placed.transfer {w w' : World D} (h : Placed w)
    (pending : w'.pending.position=w.pending.position) (frames : w'.frames=w.frames)
    (skipped : w'.skipped=w.skipped) (arrived : w'.arrived=w.arrived)
    (position : w'.position=w.position) (lists : w'.lists=w.lists) : Placed w' := by
  refine ⟨?_,?_,?_,?_,?_,?_⟩
  · rw [pending,frames,skipped,h.total]
  · rw [frames,skipped]; exact h.frame
  · rw [arrived,frames]; exact h.handled
  · rw [position,frames,arrived]; exact h.position
  · rw [arrived,frames]; exact h.arrived
  · rw [lists,arrived,frames]; exact h.list

variable {w : World D}

theorem Placed.put (h : Placed w) {frame : Frame D} (pending : Pending (Urgent D) (OutpostToCore D))
    (counted : pending.position=w.pending.position+frame.message.carriesNodes.toNat)
    (own : frame.position=pending.position) (skipped : frame.skipped=w.skipped) :
    Placed {w with pending := pending, frames := w.frames++[frame]} := by
  have size : carryingIn (w.frames++[frame]) =
      carryingIn w.frames+frame.message.carriesNodes.toNat := by
    cases carries : frame.message.carriesNodes <;> simp [carryingIn,carries]
  have earlier : ∀ n≤w.frames.length,(w.frames++[frame]).take n=w.frames.take n :=
    fun n within => take_append_of_le_length within
  refine ⟨?_,?_,?_,?_,?_,?_⟩
  · show pending.position=carryingIn (w.frames++[frame])+w.skipped
    rw [size,counted,h.total]
    omega
  · intro i other inside
    show other.position=carryingIn ((w.frames++[frame]).take (i+1))+other.skipped ∧
      other.skipped≤w.skipped
    obtain ⟨old,here⟩ | ⟨rfl,rfl⟩ := Framework.getElem?_snoc inside
    · rw [earlier (i+1) old]
      exact h.frame i other here
    · rw [take_of_length_le (by simp),size,own,counted,skipped,h.total]
      omega
  · have bound := h.handled
    simp only [length_append,length_singleton]
    omega
  · rw [earlier _ h.handled]
    exact h.position
  · intro i position inside
    have within : i<w.arrived.length := (List.getElem?_eq_some_iff.mp inside).1
    have bound := h.handled
    rw [earlier _ (by omega)]
    exact h.arrived i position inside
  · intro list inside
    obtain ⟨before,acknowledged⟩ := h.list list inside
    have bound := h.handled
    refine ⟨before,?_⟩
    rw [earlier _ (by omega)]
    exact acknowledged

variable {item : Outgoing (Urgent D) (OutpostToCore D)}

theorem pop_position {pending after : Pending (Urgent D) (OutpostToCore D)}
    (h : pending.pop=some (item,after)) :
    after.position=pending.position ∧ after.reported=pending.reported := by
  simp only [pop] at h
  split at h <;> cases h <;> exact ⟨rfl,rfl⟩

theorem number_position (pending : Pending (Urgent D) (OutpostToCore D)) (carries : Bool)
    (touched : List Carried) :
    (pending.number carries touched).position=pending.position+carries.toNat := by
  cases carries <;> rfl

theorem Placed.write (h : Placed w) (encoded : Bool) {after : Pending (Urgent D) (OutpostToCore D)}
    (popped : w.pending.pop=some (item,after)) : Placed (w.writeItem after encoded item) := by
  have same := (pop_position popped).1
  cases item with
  | urgent message =>
    have none_carried : message.message.carriesNodes=false := by cases message <;> rfl
    cases encoded with
    | true => exact h.put after (by simp [same,none_carried]) rfl rfl
    | false => exact h.transfer same rfl rfl rfl rfl rfl
  | ordinary entry =>
    cases entry with
    | flushed done => exact h.transfer same rfl rfl rfl rfl rfl
    | message m touched =>
      have counted := number_position after m.carriesNodes touched
      cases encoded with
      | true => exact h.put _ (by rw [counted,same]) rfl rfl
      | false =>
        have one : (if m.carriesNodes then w.skipped+1 else w.skipped) =
            w.skipped+m.carriesNodes.toNat := by
          cases m.carriesNodes <;> rfl
        refine ⟨?_,?_,h.handled,h.position,h.arrived,h.list⟩
        · show (after.number m.carriesNodes touched).position=carryingIn w.frames +
            (if m.carriesNodes then w.skipped+1 else w.skipped)
          rw [counted,same,h.total,one]
          omega
        · intro i frame inside
          obtain ⟨position,bound⟩ := h.frame i frame inside
          refine ⟨position,?_⟩
          show frame.skipped≤(if m.carriesNodes then w.skipped+1 else w.skipped)
          omega

theorem Placed.read (h : Placed w) (parsed : Bool) : Placed (w.readFrame parsed) := by
  simp only [World.readFrame]
  cases next : w.frames[w.arrived.length]? with
  | none => exact h
  | some frame =>
    dsimp only
    split
    · exact h
    split
    · have within : w.arrived.length<w.frames.length := (List.getElem?_eq_some_iff.mp next).1
      have one : carryingIn (w.frames.take (w.arrived.length+1)) =
          w.position+frame.message.carriesNodes.toNat := by
        rw [take_add_one,next,h.position]
        cases carries : frame.message.carriesNodes <;> simp [carryingIn,carries]
      have counted : (if frame.message.carriesNodes then w.position+1 else w.position) =
          carryingIn (w.frames.take (w.arrived.length+1)) := by
        rw [one]
        cases frame.message.carriesNodes <;> rfl
      refine ⟨h.total,h.frame,?_,?_,?_,?_⟩
      · rw [length_append,length_singleton]
        exact within
      · simpa using counted
      · intro i position inside
        obtain ⟨_,old⟩ | ⟨rfl,rfl⟩ := Framework.getElem?_snoc inside
        · exact h.arrived i position old
        · exact counted
      · intro list inside
        obtain ⟨before,acknowledged⟩ := h.list list inside
        exact ⟨by simp; omega,acknowledged⟩
    · exact h.transfer rfl rfl rfl rfl rfl rfl

theorem Placed.step (h : Placed w) (op : WorldOp D) : Placed (w.step op) := by
  cases op with
  | issueNode tag | fail => exact h.transfer rfl rfl rfl rfl rfl rfl
  | tagNode node tag | tagAnchors node anchors tag | forgetWindow nodes =>
    exact h.transfer rfl rfl rfl rfl rfl rfl
  | send item =>
    simp only [World.step]
    split
    · exact h
    refine h.transfer ?_ rfl rfl rfl rfl rfl
    cases item with
    | urgent message => rfl
    | ordinary entry => cases entry <;> rfl
  | write encoded =>
    simp only [World.step]
    cases popped : w.pending.pop with
    | none => exact h
    | some next => exact h.write encoded popped
  | read parsed => exact h.read parsed
  | makeList held =>
    refine ⟨h.total,h.frame,h.handled,h.position,h.arrived,?_⟩
    intro list inside
    rcases mem_append.mp inside with old | new
    · exact h.list list old
    · rw [mem_singleton.mp new]
      exact ⟨le_refl _,h.position⟩
  | release list live =>
    simp only [World.step]
    cases w.lists[list]? with
    | none => exact h
    | some list =>
      simp only [World.releaseFor]
      split <;> exact h.transfer rfl rfl rfl rfl rfl rfl

theorem World.run_concat (ops : List (WorldOp D)) (op : WorldOp D) :
    ({} : World D).run (ops++[op])=(({} : World D).run ops).step op := by
  simp [World.run]

theorem placed_run (ops : List (WorldOp D)) : Placed (({} : World D).run ops) := by
  induction ops using List.reverseRecOn with
  | nil => exact ⟨rfl,by simp [World.run],le_refl _,rfl,by simp [World.run],by simp [World.run]⟩
  | append_singleton ops op ih =>
    rw [World.run_concat]
    exact ih.step op

end Verbatim.Outbound
