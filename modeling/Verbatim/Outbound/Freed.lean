import Verbatim.Outbound.Records

namespace Verbatim.Outbound

open List World Pending Option Nat

variable {D : Type}

def waitingCount (reported : Carried → Option Report) (carried : Carried) : Nat :=
  ((reported carried).map Report.waiting).getD 0

def Waiting.carriesNodes : Waiting (OutpostToCore D) → Bool
  | .message m _ => m.carriesNodes
  | .flushed _ => false

/-- A report counts the waiting messages, and has the place of the last frame that named it. -/
structure Counted (w : World D) : Prop where
  failed : w.failed=true → w.pending.ordinary=[]
  queued : ∀ entry∈w.pending.ordinary,entry.touched≠[] → entry.carriesNodes=true
  carries : ∀ frame∈w.frames,frame.touched≠[] → frame.message.carriesNodes=true
  count : w.failed=false → ∀ carried,carried∉w.lost →
    waitingCount w.pending.reported carried=waitingOf carried w.pending.ordinary
  named : ∀ frame∈w.frames,∀ carried∈frame.touched,carried∈w.sent
  waiting : ∀ carried,0<waitingOf carried w.pending.ordinary → carried∈w.sent
  placed : ∀ carried,carried∉w.forgotten → ∀ report,w.pending.reported carried=some report →
    ∀ frame∈w.frames,carried∈frame.touched → frame.position≤report.position
  reached : w.skipped=0 → ∀ carried,carried∉w.forgotten → ∀ report,
    w.pending.reported carried=some report → report.position=0 ∨
      ∃ frame∈w.frames,carried∈frame.touched ∧ frame.position=report.position

theorem Counted.skim {w w' : World D} (h : Counted w)
    (empty : w'.failed=true → w'.pending.ordinary=[])
    (names : ∀ carried,waitingOf carried w'.pending.ordinary=waitingOf carried w.pending.ordinary)
    (still : ∀ entry∈w'.pending.ordinary,entry.touched≠[] → entry∈w.pending.ordinary)
    (reported : w'.pending.reported=w.pending.reported)
    (sent : w'.sent=w.sent) (forgotten : w'.forgotten=w.forgotten) (lost : w'.lost=w.lost)
    (failed : w'.failed=w.failed) (skipped : w'.skipped=w.skipped)
    (frames : w'.frames=w.frames ∨ ∃ frame,frame.touched=[] ∧ w'.frames=w.frames++[frame]) :
    Counted w' := by
  have earlier : ∀ frame∈w'.frames,frame.touched≠[] → frame∈w.frames := by
    intro frame inside some_
    rcases frames with same | ⟨last,nothing,more⟩
    · rwa [same] at inside
    · rw [more,mem_append,mem_singleton] at inside
      exact inside.resolve_right fun is => some_ (is ▸ nothing)
  have later : w.frames⊆w'.frames := by
    rcases frames with same | ⟨last,-,more⟩
    · rw [same]
      exact fun _ inside => inside
    · rw [more]
      exact subset_append_left _ _
  refine ⟨empty,?_,?_,?_,?_,?_,?_,?_⟩
  · exact fun entry inside some_ => h.queued entry (still entry inside some_) some_
  · exact fun frame inside some_ => h.carries frame (earlier frame inside some_) some_
  · intro now carried remembered
    rw [reported,names]
    exact h.count (failed ▸ now) carried (lost ▸ remembered)
  · intro frame inside carried names
    rw [sent]
    exact h.named frame (earlier frame inside (ne_nil_of_mem names)) carried names
  · intro carried some_
    rw [sent]
    exact h.waiting carried (names carried ▸ some_)
  · intro carried remembered report is frame inside names
    exact h.placed carried (forgotten ▸ remembered) report (reported ▸ is) frame
      (earlier frame inside (ne_nil_of_mem names)) names
  · intro none_skipped carried remembered report is
    exact (h.reached (skipped ▸ none_skipped) carried (forgotten ▸ remembered) report
      (reported ▸ is)).imp_right fun ⟨frame,inside,found⟩ => ⟨frame,later inside,found⟩

theorem Counted.transfer {w w' : World D} (h : Counted w) (pending : w'.pending=w.pending)
    (sent : w'.sent=w.sent) (forgotten : w'.forgotten=w.forgotten) (lost : w'.lost=w.lost)
    (failed : w'.failed=w.failed) (frames : w'.frames=w.frames)
    (skipped : w'.skipped=w.skipped) : Counted w' :=
  h.skim (failed ▸ pending ▸ h.failed) (pending ▸ fun _ => rfl) (pending ▸ fun _ inside _ => inside)
    (pending ▸ rfl) sent forgotten lost failed skipped (.inl frames)

theorem OutpostToCore.merged_carriesNodes (older : OutpostToCore D) {newer : OutpostToCore D}
    {key : EventKey} (h : newer.mergeKey=some key) : (older.merged newer).carriesNodes=true := by
  cases newer with
  | event header what =>
    unfold OutpostToCore.merged
    split
    · rfl
    · rfl
  | _ => cases h

variable {touched : List Carried} {m : OutpostToCore D}

theorem queued_carriesNodes {queue : List (Waiting (OutpostToCore D))}
    (before : ∀ entry∈queue,entry.touched≠[] → entry.carriesNodes=true)
    (own : touched≠[] → m.carriesNodes=true) :
    ∀ entry∈queued queue m touched,entry.touched≠[] → entry.carriesNodes=true := by
  intro entry inside
  rcases queued_cases queue m touched with
    last | ⟨key,front,older,olderTouched,back,across,split,keyed,-,-,-,merged⟩
  · rw [last,mem_append,mem_singleton] at inside
    rcases inside with old | rfl
    · exact before entry old
    · exact own
  rw [merged,mem_append,mem_append,mem_singleton] at inside
  rcases inside with (old | old) | rfl
  · exact before entry (by rw [split]; simp [old])
  · exact before entry (by rw [split]; simp [old])
  · exact fun _ => OutpostToCore.merged_carriesNodes older keyed

variable {w : World D}

theorem Counted.send (h : Counted w) (known : Known w) (open_ : w.failed=false)
    (own : touched≠[] → m.carriesNodes=true) :
    Counted {w with
      pending := w.pending.pushMessage m touched
      sent := w.sent++touched} := by
  -- a record made now is of something no frame named, unless it was forgotten
  have fresh : ∀ carried,carried∉w.forgotten → w.pending.reported carried=none →
      ∀ frame∈w.frames,carried∉frame.touched :=
    fun carried remembered none frame inside names =>
      known.known carried (h.named frame inside carried names) remembered none
  refine ⟨?_,queued_carriesNodes h.queued own,h.carries,?_,?_,?_,?_,?_⟩
  · exact fun failed => absurd (open_.symm.trans failed) Bool.false_ne_true
  · intro _ carried remembered
    have before := h.count open_ carried remembered
    simp only [pushMessage,waitingCount,foldl_countWaiting,waitingOf_queued] at before ⊢
    rw [← before]
    by_cases names : carried∈touched
    · cases w.pending.reported carried <;> simp [names]
    · simp [names,count_eq_zero_of_not_mem names]
  · exact fun frame inside carried names =>
      mem_append_left _ (h.named frame inside carried names)
  · intro carried some_
    have either : 0<waitingOf carried w.pending.ordinary ∨ 0<touched.count carried := by
      simp only [pushMessage,waitingOf_queued] at some_
      omega
    rcases either with old | new
    · exact mem_append_left _ (h.waiting carried old)
    · exact mem_append_right _ (count_pos_iff.mp new)
  · intro carried remembered report reported frame inside names
    simp only [pushMessage,foldl_countWaiting] at reported
    cases was : w.pending.reported carried with
    | none => exact absurd names (fresh carried remembered was frame inside)
    | some old =>
      have bound := h.placed carried remembered old was frame inside names
      rw [was] at reported
      split at reported <;> cases reported <;> exact bound
  · intro none_skipped carried remembered report reported
    simp only [pushMessage,foldl_countWaiting] at reported
    cases was : w.pending.reported carried with
    | none =>
      rw [was] at reported
      split at reported <;> cases reported
      exact .inl rfl
    | some old =>
      have found := h.reached none_skipped carried remembered old was
      rw [was] at reported
      split at reported <;> cases reported <;> exact found

variable {frame : Frame D}

theorem Placed.frame_le (h : Placed w) (inside : frame∈w.frames) :
    frame.position≤w.pending.position := by
  obtain ⟨i,within,here⟩ := mem_iff_getElem.mp inside
  obtain ⟨position,bound⟩ := h.frame i frame (List.getElem?_eq_some_iff.mpr ⟨within,here⟩)
  have part : carryingIn (w.frames.take (i+1))≤carryingIn w.frames := (take_sublist _ _).countP_le
  have total := h.total
  omega

variable {after : Pending (Urgent D) (OutpostToCore D)}

theorem Counted.writeMessage (h : Counted w) (placed : Placed w) (encoded : Bool)
    (queue : w.pending.ordinary=.message m touched::after.ordinary)
    (reported : after.reported=w.pending.reported) (position : after.position=w.pending.position) :
    Counted (w.writeItem after encoded (.ordinary (.message m touched))) := by
  have split : ∀ carried,waitingOf carried w.pending.ordinary =
      touched.count carried+waitingOf carried after.ordinary := by
    intro carried
    rw [queue]
    simp [waitingOf,Waiting.touched]
  have own : touched≠[] → m.carriesNodes=true := h.queued (.message m touched) (by rw [queue]; simp)
  have opened : w.failed=false := by
    rw [Bool.eq_false_iff]
    intro failed
    have empty := h.failed failed
    rw [queue] at empty
    cases empty
  -- the record of what the message names, and of what it does not
  have report : ∀ carried,(after.number m.carriesNodes touched).reported carried =
      if carried∈touched then (w.pending.reported carried).map (fun report =>
        ⟨(after.number m.carriesNodes touched).position,report.waiting-touched.count carried⟩)
      else w.pending.reported carried := by
    intro carried
    rw [← reported]
    exact foldl_countWritten _ _ _ _
  have above : ∀ frame∈w.frames,frame.position≤(after.number m.carriesNodes touched).position := by
    intro frame inside
    rw [number_position,position]
    exact le_trans (placed.frame_le inside) (le_add_right _ _)
  have count : ∀ carried,carried∉w.lost →
      waitingCount (after.number m.carriesNodes touched).reported carried =
        waitingOf carried after.ordinary := by
    intro carried remembered
    have before := h.count opened carried remembered
    rw [split] at before
    simp only [waitingCount,report] at before ⊢
    by_cases names : carried∈touched
    · cases was : w.pending.reported carried with
      | none =>
        rw [was] at before
        have some_ := count_pos_iff.mpr names
        simp only [map_none,getD_none] at before
        omega
      | some old =>
        rw [was] at before
        simp only [map_some,getD_some] at before
        simp only [names,if_true,map_some,getD_some]
        omega
    · rw [count_eq_zero_of_not_mem names] at before
      simpa [names] using before
  have waiting : ∀ carried,0<waitingOf carried after.ordinary → carried∈w.sent :=
    fun carried some_ => h.waiting carried (by rw [split]; omega)
  have queued : ∀ entry∈after.ordinary,entry.touched≠[] → entry.carriesNodes=true :=
    fun entry inside => h.queued entry (by rw [queue]; exact mem_cons_of_mem _ inside)
  have named : ∀ carried∈touched,carried∈w.sent := by
    intro carried names
    have some_ := count_pos_iff.mpr names
    exact h.waiting carried (by rw [split]; omega)
  have cases_ : ∀ {carried now},(after.number m.carriesNodes touched).reported carried=some now →
      carried∈touched ∧ now.position=(after.number m.carriesNodes touched).position ∨
        carried∉touched ∧ w.pending.reported carried=some now := by
    intro carried now is
    rw [report] at is
    split at is
    · obtain ⟨-,-,rfl⟩ := map_eq_some_iff.mp is
      exact .inl ⟨‹_›,rfl⟩
    · exact .inr ⟨‹_›,is⟩
  have old : ∀ carried,carried∉w.forgotten → ∀ now,
      (after.number m.carriesNodes touched).reported carried=some now →
      ∀ frame∈w.frames,carried∈frame.touched → frame.position≤now.position := by
    intro carried remembered now is frame inside names
    rcases cases_ is with ⟨-,at_⟩ | ⟨-,was⟩
    · exact at_ ▸ above frame inside
    · exact h.placed carried remembered now was frame inside names
  cases encoded with
  | true =>
    refine ⟨fun failed => absurd (opened.symm.trans failed) Bool.false_ne_true,queued,?_,
      fun _ => count,?_,waiting,?_,?_⟩
    · exact forall_mem_append.2 ⟨h.carries,forall_mem_singleton.2 own⟩
    · exact forall_mem_append.2 ⟨h.named,forall_mem_singleton.2 named⟩
    · intro carried remembered now is
      refine forall_mem_append.2 ⟨old carried remembered now is,
        forall_mem_singleton.2 fun names => ?_⟩
      rcases cases_ is with ⟨-,at_⟩ | ⟨unnamed,-⟩
      · exact at_ ▸ le_refl _
      · exact absurd names unnamed
    · intro none_skipped carried remembered now is
      rcases cases_ is with ⟨names,at_⟩ | ⟨-,was⟩
      · exact .inr ⟨_,mem_append_right _ (mem_singleton_self _),names,at_.symm⟩
      · refine (h.reached none_skipped carried remembered now was).imp_right ?_
        rintro ⟨frame,inside,found⟩
        exact ⟨frame,mem_append_left _ inside,found⟩
  | false =>
    refine ⟨fun failed => absurd (opened.symm.trans failed) Bool.false_ne_true,queued,h.carries,
      fun _ => count,h.named,waiting,old,?_⟩
    intro none_skipped carried remembered now is
    have zero : (if m.carriesNodes then w.skipped+1 else w.skipped)=0 := none_skipped
    -- a message that carries no nodes names nothing
    have plain : m.carriesNodes=false := by
      rw [Bool.eq_false_iff]
      intro carries
      rw [if_pos carries] at zero
      omega
    rw [plain] at zero
    rcases cases_ is with ⟨names,-⟩ | ⟨-,was⟩
    · exact absurd (plain.symm.trans (own (ne_nil_of_mem names))) Bool.false_ne_true
    · exact h.reached zero carried remembered now was

theorem Counted.writeItem (h : Counted w) (placed : Placed w) (encoded : Bool)
    {item : Outgoing (Urgent D) (OutpostToCore D)} (popped : w.pending.pop=some (item,after)) :
    Counted (w.writeItem after encoded item) := by
  obtain ⟨position,reported⟩ := pop_position popped
  simp only [pop] at popped
  split at popped
  · cases popped
    refine h.skim h.failed (fun _ => rfl) (fun _ inside _ => inside) reported rfl rfl rfl rfl rfl ?_
    cases encoded with
    | true => exact .inr ⟨_,rfl,rfl⟩
    | false => exact .inl rfl
  · rename_i entry rest none_urgent queue
    cases popped
    cases entry with
    | flushed done =>
      exact h.skim (fun failed => absurd (queue.symm.trans (h.failed failed)) (cons_ne_nil _ _))
        (fun carried => by simp [waitingOf,queue,Waiting.touched,World.writeItem])
        (fun _ inside _ => queue ▸ mem_cons_of_mem _ inside) reported rfl rfl rfl rfl rfl (.inl rfl)
    | message m touched => exact h.writeMessage placed encoded queue reported position
  · cases popped

theorem Counted.releaseFor (h : Counted w) (list : HeldList) (live : List Tag) :
    Counted (w.releaseFor list live) := by
  simp only [World.releaseFor]
  split
  · exact h.transfer rfl rfl rfl rfl rfl rfl rfl
  have before : ∀ carried report,
      (w.pending.forget fun carried =>
        !(w.store.release w.pending.reported list live).keeps carried).reported carried =
          some report → w.pending.reported carried=some report := by
    intro carried report is
    simp only [forget] at is
    split at is
    · cases is
    · exact is
  refine ⟨h.failed,h.queued,h.carries,?_,h.named,h.waiting,?_,?_⟩
  · intro opened carried remembered
    rw [mem_append,not_or] at remembered
    have exact_ := h.count opened carried remembered.1
    cases keeps : (w.store.release w.pending.reported list live).keeps carried with
    | true => simpa [forget,waitingCount,keeps] using exact_
    | false =>
      have none_waits : ¬ 0<waitingOf carried w.pending.ordinary := fun some_ =>
        remembered.2 (by simp [h.waiting carried some_,keeps,some_])
      have nothing : waitingOf carried w.pending.ordinary=0 := by omega
      simp [forget,waitingCount,keeps,nothing]
  · intro carried remembered report is
    rw [mem_append,not_or] at remembered
    exact h.placed carried remembered.1 report (before carried report is)
  · intro none_skipped carried remembered report is
    rw [mem_append,not_or] at remembered
    exact h.reached none_skipped carried remembered.1 report (before carried report is)

theorem Counted.step (h : Counted w) (placed : Placed w) (known : Known w)
    (op : WorldOp D) : Counted (w.step op) := by
  cases op with
  | issueNode tag | makeList held => exact h.transfer rfl rfl rfl rfl rfl rfl rfl
  | tagNode node tag | tagAnchors node anchors tag | forgetWindow nodes =>
    exact h.transfer rfl rfl rfl rfl rfl rfl rfl
  | send item =>
    simp only [World.step]
    split
    · exact h
    rename_i taken
    simp only [Bool.or_eq_true,not_or,Bool.not_eq_true,Bool.not_eq_false'] at taken
    cases item with
    | urgent message =>
      exact h.skim h.failed (fun _ => rfl) (fun _ inside _ => inside) rfl (by simp [namedBy])
        rfl rfl
        rfl rfl (.inl rfl)
    | ordinary entry =>
      cases entry with
      | message m touched =>
        refine h.send known taken.1 fun some_ => ?_
        have names := taken.2
        simp only [namesIssued,Bool.and_eq_true,Bool.or_eq_true,List.isEmpty_iff] at names
        exact names.2.resolve_right some_
      | flushed done =>
        refine h.skim (fun failed => absurd (taken.1.symm.trans failed) Bool.false_ne_true)
          (by simp [waitingOf,Waiting.touched,push]) ?_ rfl (by simp [namedBy]) rfl rfl rfl rfl
          (.inl rfl)
        exact forall_mem_append.2 ⟨fun _ inside _ => inside,
          forall_mem_singleton.2 fun some_ => absurd rfl some_⟩
  | write encoded =>
    simp only [World.step]
    cases popped : w.pending.pop with
    | none => exact h
    | some next => exact h.writeItem placed encoded popped
  | fail =>
    refine ⟨fun _ => rfl,?_,h.carries,?_,h.named,?_,h.placed,h.reached⟩
    · exact forall_mem_nil _
    · exact fun opened => absurd opened.symm Bool.false_ne_true
    · exact fun carried some_ => absurd some_ (by simp [World.step,waitingOf])
  | read parsed =>
    refine h.transfer ?_ ?_ ?_ ?_ ?_ ?_ ?_ <;>
      simp only [World.step,World.readFrame] <;> split <;> (try split) <;> (try split) <;> simp
  | release list live =>
    simp only [World.step]
    cases w.lists[list]? with
    | none => exact h
    | some list => exact h.releaseFor list live

theorem counted_run (ops : List (WorldOp D)) :
    Known (({} : World D).run ops) ∧ Counted (({} : World D).run ops) := by
  induction ops using List.reverseRecOn with
  | nil => constructor <;> constructor <;> simp [run,Store.keeps,waitingCount,waitingOf]
  | append_singleton ops op ih =>
    rw [run_concat]
    exact ⟨ih.1.step op,ih.2.step (placed_run ops) ih.1 op⟩

/-- When Core made the list it had handled every message that named it, and none waits; the list
does not name it. -/
def HandledBy (w : World D) (list : HeldList) (carried : Carried) : Prop :=
  waitingOf carried w.pending.ordinary=0 ∧
    (∀ i frame,w.frames[i]?=some frame → carried∈frame.touched → i<list.handled) ∧
    carried∉list.held

theorem carryingIn_take_lt {frames : List (Frame D)} {n i : Nat}
    (here : frames[i]?=some frame) (carries : frame.message.carriesNodes=true) (later : n ≤ i) :
    carryingIn (frames.take n)<carryingIn (frames.take (i+1)) := by
  have part : carryingIn (frames.take n)≤carryingIn (frames.take i) :=
    (take_sublist_take_left later).countP_le
  have one : carryingIn (frames.take (i+1))=carryingIn (frames.take i)+1 := by
    rw [take_add_one,here]
    simp [carryingIn,carries]
  omega

theorem Placed.handled_of_le (h : Placed w) {list : HeldList} (made : list∈w.lists) {i : Nat}
    (here : w.frames[i]?=some frame) (carries : frame.message.carriesNodes=true)
    (acknowledged : frame.position≤list.acknowledged) : i<list.handled := by
  by_contra later
  have more := carryingIn_take_lt here carries (Nat.le_of_not_lt later)
  have position := (h.frame i frame here).1
  have count := (h.list list made).2
  omega

theorem Placed.le_of_handled (h : Placed w) (none_skipped : w.skipped=0) {list : HeldList}
    (made : list∈w.lists) {i : Nat} (here : w.frames[i]?=some frame) (handled : i<list.handled) :
    frame.position≤list.acknowledged := by
  have part : carryingIn (w.frames.take (i+1))≤carryingIn (w.frames.take list.handled) :=
    (take_sublist_take_left handled).countP_le
  obtain ⟨position,bound⟩ := h.frame i frame here
  have count := (h.list list made).2
  omega

/-- The outpost's position of each frame Core reads is Core's and the number of messages that carry
nodes skipped before it, so the two agree exactly when none was. While the pipe has not failed a
waiting count is the number of occurrences in the messages that wait, for all the queue did not
forget while some waited. A kept node was never forgotten, and a release lets go of those it frees.
What it frees has no live tag, and no message named it or Core had handled each that did; with none
skipped and the pipe whole, all such is freed. -/
theorem release_sound (ops : List (WorldOp D)) (w : World D) (run : ({} : World D).run ops=w) :
    (∀ (i : Nat) (frame : Frame D) (position : Nat),
      w.frames[i]?=some frame → w.arrived[i]?=some position →
      frame.position=position+frame.skipped ∧ (frame.position=position ↔ frame.skipped=0)) ∧
    (w.failed=false → ∀ carried,carried∉w.lost →
      waitingCount w.pending.reported carried=waitingOf carried w.pending.ordinary) ∧
    (∀ n,w.store.keeps (.node n)=true → .node n∉w.forgotten ∧ .node n∉w.lost ∧
      ∀ list live,(w.releaseFor list live).store.keeps (.node n)=true ↔
        .node n∉w.store.freed w.pending.reported list live) ∧
    (∀ list∈w.lists,∀ live carried,carried∉w.forgotten →
      carried∈w.store.freed w.pending.reported list live →
        (∀ tag∈w.store.tagsOf carried,tag∉live) ∧ (carried∉w.sent ∨ HandledBy w list carried)) ∧
    (w.skipped=0 → w.failed=false → ∀ list∈w.lists,∀ live carried,
      carried∉w.forgotten → w.store.keeps carried=true →
        (∀ tag∈w.store.tagsOf carried,tag∉live) →
          (carried∉w.sent ∨ HandledBy w list carried) →
            carried∈w.store.freed w.pending.reported list live) := by
  subst run
  have placed := placed_run ops
  obtain ⟨known,counted⟩ := counted_run ops
  generalize ({} : World D).run ops=w at placed known counted
  refine ⟨?_,counted.count,?_,?_,?_⟩
  · intro i frame position here arrived
    have outpost := (placed.frame i frame here).1
    have core := placed.arrived i position arrived
    omega
  · intro n keeps
    have remembered : Carried.node n∉w.forgotten := fun forgotten =>
      Bool.false_ne_true ((known.gone n forgotten).symm.trans keeps)
    refine ⟨remembered,fun lost => remembered (known.lost _ lost),fun list live => ?_⟩
    have store : (w.releaseFor list live).store=w.store.release w.pending.reported list live := by
      simp only [releaseFor]
      split <;> rfl
    rw [store,Store.release_keeps_node]
    exact and_iff_right keeps
  · intro list made live carried remembered freed
    obtain ⟨-,untagged,free⟩ := (Store.mem_freed known.keys _ _ _ _).mp freed
    refine ⟨untagged,?_⟩
    cases is : w.pending.reported carried with
    | none => exact .inl fun sent => known.known carried sent remembered is
    | some report =>
      obtain ⟨none_waits,acknowledged,unnamed⟩ := free report is
      refine .inr ⟨?_,?_,unnamed⟩
      · cases failed : w.failed with
        | true => simp [counted.failed failed,waitingOf]
        | false =>
          rw [← counted.count failed carried fun lost => remembered (known.lost _ lost)]
          simp [waitingCount,is,none_waits]
      · intro i frame here names
        have inside := mem_of_getElem? here
        refine placed.handled_of_le made here
          (counted.carries frame inside (ne_nil_of_mem names)) ?_
        exact le_trans (counted.placed carried remembered report is frame inside names) acknowledged
  · intro none_skipped opened list made live carried remembered keeps untagged either
    refine (Store.mem_freed known.keys _ _ _ _).mpr ⟨keeps,untagged,fun report is => ?_⟩
    rcases either with unsent | ⟨none_waits,handled,unnamed⟩
    · exact absurd (known.recorded carried (by simp [is])) unsent
    refine ⟨?_,?_,unnamed⟩
    · have count := counted.count opened carried (fun lost => remembered (known.lost _ lost))
      rw [none_waits] at count
      simpa [waitingCount,is] using count
    · rcases counted.reached none_skipped carried remembered report is with
        zero | ⟨frame,inside,names,last⟩
      · omega
      obtain ⟨i,within,at_⟩ := mem_iff_getElem.mp inside
      have here : w.frames[i]?=some frame := List.getElem?_eq_some_iff.mpr ⟨within,at_⟩
      rw [← last]
      exact placed.le_of_handled none_skipped made here (handled i frame here names)

def handledOps : List (WorldOp Nat) :=
  [.issueNode ⟨1,1⟩,.send (.ordinary (.message (.event 0 (.textChanged ⟨0,0⟩)) [.node 0])),
    .write true,.read true,.makeList []]

theorem handledOps_freed : Carried.node 0∈(({} : World Nat).run handledOps).store.freed
      (({} : World Nat).run handledOps).pending.reported ⟨[],1,1⟩ [] := by
  refine (release_sound handledOps _ rfl).2.2.2.2 (by decide +kernel) (by decide +kernel) ⟨[],1,1⟩
    (by decide +kernel) [] (.node 0) (by decide +kernel) (by decide +kernel) (by decide +kernel)
    (.inr ⟨by decide +kernel,?_,by decide +kernel⟩)
  intro i frame here _
  exact (List.getElem?_eq_some_iff.mp here).1

/-- The event before it could not be encoded: its number is one more than Core counts, and its node
is not freed though Core handled every message that names it and does not hold it. -/
theorem skipped_message_drifts : let ops : List (WorldOp Nat) :=
      [.issueNode ⟨1,1⟩,.send (.ordinary (.message (.event 0 (.textChanged ⟨0,0⟩)) [.node 0])),
        .write false,
        .send (.ordinary (.message (.event 0 (.textChanged ⟨0,0⟩)) [.node 0])),.write true,
        .read true,.makeList []]
    let w := ({} : World Nat).run ops
    w.frames.map Frame.position=[2] ∧ w.arrived=[1] ∧ w.lists=[⟨[],1,1⟩] ∧
      w.failed=false ∧ w.pending.isEmpty=true ∧
      w.store.freed w.pending.reported ⟨[],1,1⟩ []=[] := by
  decide +kernel

end Verbatim.Outbound
