import Verbatim.Outbound.Groups

namespace Verbatim.Outbound

open Merge Verbatim.Core List Verbatim.Outbound.Group

section Sending

variable {U M K : Type} [Merge M K] [DecidableEq K]

/-- What is done to the queue: an item is sent, or the next is written. -/
inductive QueueOp (U M : Type) where
  | push (item : Outgoing U M)
  | pop

/-- The queue and what was written, oldest first. -/
structure Sending (U M : Type) where
  pending : Pending U M := {}
  written : List (Outgoing U M) := []

namespace Sending

def step (s : Sending U M) : QueueOp U M → Sending U M
  | .push item => {s with pending := s.pending.push item}
  | .pop =>
      match s.pending.pop with
      | none => s
      | some (item,pending) => ⟨pending,s.written++[item]⟩

def run (s : Sending U M) (ops : List (QueueOp U M)) : Sending U M := ops.foldl step s

end Sending

def Outgoing.ordinary? : Outgoing U M → Option (Waiting M)
  | .ordinary waiting => some waiting
  | .urgent _ => none

def Outgoing.urgent? : Outgoing U M → Option U
  | .ordinary _ => none
  | .urgent message => some message

def ordinaries (items : List (Outgoing U M)) : List (Waiting M) :=
  items.filterMap Outgoing.ordinary?

def urgents (items : List (Outgoing U M)) : List U := items.filterMap Outgoing.urgent?

def QueueOp.pushed : QueueOp U M → Option (Outgoing U M)
  | .push item => some item
  | .pop => none

def sentIn (ops : List (QueueOp U M)) : List (Outgoing U M) := ops.filterMap QueueOp.pushed

namespace Sending

def out (s : Sending U M) : List (Waiting M) := ordinaries s.written++s.pending.ordinary

theorem run_pops (s : Sending U M) :
    (s.run (replicate (s.pending.urgent.length+s.pending.ordinary.length)
      .pop)).pending.isEmpty=true := by
  obtain ⟨⟨urgent,ordinary,position,reported⟩,written⟩ := s
  induction urgent generalizing written with
  | nil =>
    induction ordinary generalizing written with
    | nil => rfl
    | cons waiting ordinary ih =>
      exact ih (written++[.ordinary waiting])
  | cons message urgent ih =>
    simp only [length_cons,Nat.add_right_comm _ 1,replicate_succ] at ih ⊢
    exact ih (written++[.urgent message])

variable [LawfulMerge M K]

/-- The queue's entries are groups of what was sent, and the urgent messages go in order. -/
structure Tracks (s : Sending U M) (sent : List (Outgoing U M)) : Prop where
  groups : ∃ groups : List (Group M),s.out=groups.map value ∧ Orderly groups (ordinaries sent)
  urgent : urgents s.written++s.pending.urgent=urgents sent

section

variable (sent : List (Outgoing U M))

include sent

theorem ordinaries_push (waiting : Waiting M) :
    ordinaries (sent++[.ordinary waiting])=ordinaries sent++[waiting] := by
  simp [ordinaries,Outgoing.ordinary?]

theorem ordinaries_urgent (message : U) : ordinaries (sent++[.urgent message])=ordinaries sent := by
  simp [ordinaries,Outgoing.ordinary?]

theorem urgents_push (waiting : Waiting M) : urgents (sent++[.ordinary waiting])=urgents sent := by
  simp [urgents,Outgoing.urgent?]

theorem urgents_urgent (message : U) :
    urgents (sent++[.urgent message])=urgents sent++[message] := by
  simp [urgents,Outgoing.urgent?]

end

theorem Tracks.push {s : Sending U M} {sent : List (Outgoing U M)} (h : Tracks s sent)
    (item : Outgoing U M) : Tracks (s.step (.push item)) (sent++[item]) := by
  obtain ⟨groups,values,orderly⟩ := h.groups
  -- an entry that is not merged is a group of its own, at the back
  have back {entry : Waiting M} {queue : List (Waiting M)}
      (same : queue=s.pending.ordinary++[entry]) :
      ∃ groups : List (Group M),ordinaries s.written++queue=groups.map value ∧
        Orderly groups (ordinaries (sent++[(.ordinary entry : Outgoing U M)])) := by
    refine ⟨_,?_,by rw [ordinaries_push]; exact orderly.push entry⟩
    rw [same,← append_assoc,map_append,← values]
    rfl
  cases item with
  | urgent message =>
    refine ⟨⟨groups,values,by rwa [ordinaries_urgent]⟩,?_⟩
    rw [urgents_urgent,← h.urgent,append_assoc]
    rfl
  | ordinary waiting =>
    have urgent : urgents s.written++s.pending.urgent=urgents (sent++[.ordinary waiting]) := by
      rw [urgents_push,h.urgent]
    cases waiting with
    | flushed done => exact ⟨back rfl,urgent⟩
    | message message touched =>
      refine ⟨?_,urgent⟩
      rcases queued_cases s.pending.ordinary message touched with
        last | ⟨key,before,older,olderTouched,after,across,split,named,same,may,others,merged⟩
      · exact back last
      rw [out,split,← append_assoc] at values
      obtain ⟨lead,rest,rfl,leading,resting⟩ := map_eq_append_iff.mp values.symm
      obtain ⟨g,tail,rfl,here,trailing⟩ := map_eq_cons_iff.mp resting
      have mine : g.value.key=some key := by rw [here]; exact same
      have newer : (Waiting.message message touched).key=some key := named
      refine ⟨lead++tail++[g.add (.message message touched,(ordinaries sent).length)
        mine newer],?_,?_⟩
      · show ordinaries s.written++Pending.queued s.pending.ordinary message touched=_
        rw [merged,map_append,map_append,leading,trailing,map_singleton,value_add,here]
        simp [Waiting.join]
      · rw [ordinaries_push]
        have others' : ∀ other∈tail,other.value.key≠some key ∧ other.value.barrier≠.all ∧
            other.value.barrier.rank≤across.rank := by
          intro other member
          exact others other.value (trailing ▸ mem_map_of_mem member)
        refine orderly.merge mine newer others' ?_
        intro held
        rw [here] at held
        exact LawfulMerge.refuses may held

theorem Tracks.pop {s : Sending U M} {sent : List (Outgoing U M)} (h : Tracks s sent) :
    Tracks (s.step .pop) sent := by
  obtain ⟨⟨urgent,ordinary,position,reported⟩,written⟩ := s
  cases urgent with
  | cons message urgent =>
    refine ⟨?_,?_⟩
    · obtain ⟨groups,values,orderly⟩ := h.groups
      refine ⟨groups,?_,orderly⟩
      rw [← values]
      simp [step,Pending.pop,out,ordinaries_urgent]
    · rw [← h.urgent]
      simp [step,Pending.pop,urgents_urgent]
  | nil =>
    cases ordinary with
    | nil => exact h
    | cons waiting ordinary =>
      refine ⟨?_,?_⟩
      · obtain ⟨groups,values,orderly⟩ := h.groups
        refine ⟨groups,?_,orderly⟩
        rw [← values]
        simp [step,Pending.pop,out,ordinaries_push]
      · rw [← h.urgent]
        simp [step,Pending.pop,urgents_push]

theorem tracks_run (ops : List (QueueOp U M)) :
    Tracks (({} : Sending U M).run ops) (sentIn ops) := by
  induction ops using reverseRecOn with
  | nil => exact ⟨⟨[],rfl,orderly_nil⟩,rfl⟩
  | append_singleton ops op ih =>
    have next : ({} : Sending U M).run (ops++[op])=(({} : Sending U M).run ops).step op := by
      simp [run]
    rw [next]
    cases op with
    | push item =>
      have sent : sentIn (ops++[.push item])=sentIn ops++[item] := by
        simp [sentIn,QueueOp.pushed]
      rw [sent]
      exact ih.push item
    | pop =>
      have sent : sentIn (ops++[(.pop : QueueOp U M)])=sentIn ops := by
        simp [sentIn,QueueOp.pushed]
      rw [sent]
      exact ih.pop

end Sending

end Sending

section Order

variable {M K : Type} [Merge M K] [DecidableEq K] [LawfulMerge M K]

theorem zipIdx_sorted {α : Type} (list : List α) : list.zipIdx.Pairwise fun x y => x.2<y.2 := by
  have numbers : list.zipIdx.map Prod.snd=range' 0 list.length := zipIdx_map_snd 0 list
  have sorted : (range' 0 list.length).Pairwise (·<·) := pairwise_lt_range'
  rw [← numbers,pairwise_map] at sorted
  exact sorted

/-- Of each key, and of those without, the entries are in the order sent, each once. -/
theorem Orderly.filter_key {groups : List (Group M)} {sent : List (Waiting M)}
    (h : Orderly groups sent) (key : Option K) :
    (groups.flatMap items).filter (fun x => x.1.key=key) =
      sent.zipIdx.filter fun x => x.1.key=key := by
  have sorted : ((groups.flatMap items).filter fun x => x.1.key=key).Pairwise
      fun x y => x.2<y.2 := by
    refine List.Pairwise.imp_of_mem ?_ (h.kept.filter _)
    intro x y inside inside' ordered
    have mine := of_decide_eq_true (mem_filter.mp inside).2
    have yours := of_decide_eq_true (mem_filter.mp inside').2
    exact ordered (.inr (.inr (.inr (.inr (mine.trans yours.symm)))))
  refine List.Perm.eq_of_pairwise ?_ sorted ((zipIdx_sorted sent).filter _) (h.all.filter _)
  intro x y _ _ less more
  exact absurd less (Nat.lt_asymm more)

theorem flatMap_filter_key (groups : List (Group M)) (key : Option K) :
    (groups.filter fun g => g.value.key=key).flatMap items =
      (groups.flatMap items).filter fun x => x.1.key=key := by
  induction groups with
  | nil => rfl
  | cons g groups ih =>
    have whole : ∀ x∈g.items,x.1.key=g.value.key := fun x inside => (g.value_key inside).symm
    rw [flatMap_cons,filter_append,← ih]
    by_cases same : g.value.key=key
    · have own : g.items.filter (fun x => x.1.key=key)=g.items :=
        filter_eq_self.mpr fun x inside => decide_eq_true ((whole x inside).trans same)
      rw [filter_cons_of_pos (by simpa using same),flatMap_cons,own]
    · have own : g.items.filter (fun x => x.1.key=key)=[] :=
        filter_eq_nil_iff.mpr fun x inside => by simpa [whole x inside] using same
      rw [filter_cons_of_neg (by simpa using same),own,nil_append]

theorem values_unkeyed (groups : List (Group M)) :
    (groups.map value).filter (fun entry => entry.key=(none : Option K)) =
      ((groups.flatMap items).filter fun x => x.1.key=(none : Option K)).map Prod.fst := by
  rw [← flatMap_filter_key,filter_map]
  induction groups with
  | nil => rfl
  | cons g groups ih =>
    by_cases unkeyed : g.value.key=none
    · have single : g.later=[] := by
        rcases g.alike with single | ⟨key,all⟩
        · exact single
        have keyed := all g.first (by simp)
        rw [← g.value_key (by simp [items]),unkeyed] at keyed
        cases keyed
      rw [filter_cons_of_pos (by simpa using unkeyed),
        filter_cons_of_pos (by simpa using unkeyed),map_cons,flatMap_cons,
        map_append,← ih]
      simp [items,value,single]
    · rw [filter_cons_of_neg (by simpa using unkeyed),
        filter_cons_of_neg (by simpa using unkeyed),ih]

omit [DecidableEq K] in
theorem Orderly.around {before after : List (Group M)} {g : Group M} {sent : List (Waiting M)}
    (h : Orderly (before++g::after) sent) :
    (∀ x∈before.flatMap items,Bound x.1 g.first.1 → x.2<g.first.2) ∧
      ∀ x∈after.flatMap items,Bound g.first.1 x.1 → g.first.2<x.2 := by
  have kept := h.kept
  rw [flatMap_append,flatMap_cons] at kept
  obtain ⟨-,rest,earlier⟩ := pairwise_append.mp kept
  obtain ⟨-,-,later⟩ := pairwise_append.mp rest
  have own : g.first∈g.items := by simp [items]
  exact ⟨fun x inside => earlier x inside g.first (mem_append_left _ own),
    fun x inside => later g.first own x inside⟩

end Order

section Outpost

variable {D : Type}

namespace OutpostToCore

theorem merged_of_caret {older newer : OutpostToCore D} {key : EventKey}
    (h : older.mergeKey=some key) (h' : newer.mergeKey=some key) :
    (older.merged newer).mergeKey=some key ∧
      (older.merged newer).selectionChanges=older.selectionChanges++newer.selectionChanges := by
  cases older with
  | event header event =>
    cases event with
    | caretMoved node caret changes inGeneral new =>
      cases h
      cases newer with
      | event header' event' =>
        cases event' <;> simp [mergeKey,eventKey] at h'
        subst h'
        exact ⟨rfl,rfl⟩
      | _ => cases h'
    | _ => exact ⟨h',rfl⟩
  | _ => exact ⟨h',rfl⟩

instance : LawfulMerge (OutpostToCore D) EventKey where
  holds := carriesSelectionChanges
  keyed {message key} h := by
    cases message with
    | event header event => rfl
    | _ => cases h
  merged_key h h' := (merged_of_caret h h').1
  merged_holds {older newer key} h h' := by
    have changes : (older.merged newer).selectionChanges =
        older.selectionChanges++newer.selectionChanges := (merged_of_caret h h').2
    show (older.merged newer).carriesSelectionChanges =
      (older.carriesSelectionChanges || newer.carriesSelectionChanges)
    simp only [carriesSelectionChanges,changes]
    cases older.selectionChanges <;> simp
  refuses {older newer crossed} h held := by
    have may : older.mayMerge newer crossed=true := h
    have carries : older.carriesSelectionChanges=true := held
    have one : Barrier.reply.rank=1 := rfl
    simp only [mayMerge,carries,one,Bool.true_and,Bool.not_eq_true',Bool.or_eq_false_iff,
      decide_eq_false_iff_not] at may
    omega

end OutpostToCore

def changesOf (node : NodeId) : Waiting (OutpostToCore D) → List SelectionChange
  | .message m _ => if m.mergeKey=some ⟨node,.caretMoved,.none⟩ then m.selectionChanges else []
  | .flushed _ => []

def OutpostToCore.withoutChanges : OutpostToCore D → OutpostToCore D
  | .event header (.caretMoved node caret _ inGeneral new) =>
      .event header (.caretMoved node caret [] inGeneral new)
  | m => m

def newestOf : Waiting (OutpostToCore D) → Option (OutpostToCore D)
  | .message m _ => some m.withoutChanges
  | .flushed _ => none

variable {older newer : Waiting (OutpostToCore D)}

theorem changesOf_join {key : EventKey}
    (h : older.key=some key) (h' : newer.key=some key) (node : NodeId) :
    changesOf node (older.join newer)=changesOf node older++changesOf node newer := by
  cases older with
  | flushed done => cases h
  | message m touched =>
    cases newer with
    | flushed done => cases h'
    | message m' touched' =>
      have both : m.mergeKey=some key ∧ m'.mergeKey=some key := ⟨h,h'⟩
      obtain ⟨named,changes⟩ := OutpostToCore.merged_of_caret both.1 both.2
      have joined : changesOf node ((Waiting.message m touched).join (.message m' touched')) =
          if (m.merged m').mergeKey=some ⟨node,.caretMoved,.none⟩ then
            (m.merged m').selectionChanges else [] := rfl
      rw [joined,named,changes]
      simp only [changesOf,both.1,both.2]
      split
      · rfl
      · rfl

theorem newestOf_join {key : EventKey}
    (h' : newer.key=some key) : newestOf (older.join newer)=newestOf newer := by
  cases newer with
  | flushed done => cases h'
  | message m' touched' =>
    cases older with
    | flushed done => rfl
    | message m touched =>
      show some (m.merged m').withoutChanges=some m'.withoutChanges
      simp only [OutpostToCore.merged]
      split <;> rfl

variable (g : Group (OutpostToCore D))

theorem changesOf_value (node : NodeId) :
    changesOf node g.value=g.items.flatMap fun x => changesOf node x.1 := by
  obtain ⟨first,later,alike⟩ := g
  rcases alike with rfl | ⟨key,all⟩
  · simp [value,items]
  have start := all first (by simp)
  have rest : ∀ x∈later,x.1.key=some key := fun x inside => all x (mem_cons_of_mem _ inside)
  simp only [value,items,flatMap_cons]
  clear all
  generalize first.1=entry at start ⊢
  induction later generalizing entry with
  | nil => simp
  | cons x later ih =>
    have next := rest x (by simp)
    rw [foldl_cons,ih (fun y inside => rest y (mem_cons_of_mem _ inside))
      (entry.join x.1) (Waiting.join_key start next),changesOf_join start next,
      flatMap_cons,append_assoc]

theorem newestOf_value {last : Sent (OutpostToCore D)}
    (h : g.items.getLast?=some last) : newestOf g.value=newestOf last.1 := by
  obtain ⟨first,later,alike⟩ := g
  rcases eq_nil_or_concat' later with rfl | ⟨front,x,rfl⟩
  · simp only [items,getLast?_singleton,Option.some.injEq] at h
    rw [value,← h]
    rfl
  have same : x=last := by
    simpa [items,getLast?_cons,getLast?_append] using h
  rcases alike with empty | ⟨key,all⟩
  · simp at empty
  have named : x.1.key=some key := all x (by simp)
  simp only [value,foldl_append,foldl_cons,foldl_nil]
  rw [newestOf_join named,same]

theorem changesOf_key {entry : Waiting (OutpostToCore D)} {node : NodeId}
    (h : entry.key≠some (⟨node,.caretMoved,.none⟩ : EventKey)) : changesOf node entry=[] := by
  cases entry with
  | flushed done => rfl
  | message m touched => exact if_neg h

theorem flatMap_changes (list : List (Sent (OutpostToCore D))) (node : NodeId) :
    list.flatMap (fun x => changesOf node x.1) =
      (list.filter fun x => x.1.key=some (⟨node,.caretMoved,.none⟩ : EventKey)).flatMap
        fun x => changesOf node x.1 := by
  induction list with
  | nil => rfl
  | cons x list ih =>
    by_cases same : x.1.key=some (⟨node,.caretMoved,.none⟩ : EventKey)
    · rw [filter_cons_of_pos (by simpa using same),flatMap_cons,flatMap_cons,ih]
    · rw [filter_cons_of_neg (by simpa using same),flatMap_cons,changesOf_key same,ih,nil_append]

theorem Orderly.changes {groups : List (Group (OutpostToCore D))}
    {sent : List (Waiting (OutpostToCore D))} (h : Orderly groups sent) (node : NodeId) :
    (groups.map value).flatMap (changesOf node)=sent.flatMap (changesOf node) := by
  have items : (groups.map value).flatMap (changesOf node) =
      (groups.flatMap items).flatMap fun x => changesOf node x.1 := by
    rw [flatMap_map,flatMap_assoc]
    exact flatMap_congr fun g _ => changesOf_value g node
  have numbered : sent.flatMap (changesOf node) =
      sent.zipIdx.flatMap fun x => changesOf node x.1 := by
    conv_lhs => rw [← zipIdx_map_fst 0 sent,flatMap_map]
  rw [items,numbered,flatMap_changes,h.filter_key,← flatMap_changes]

end Outpost

/-- Every run of the outpost's queue: what is written and waits is groups of what was sent. Of each
key the groups hold the events sent, in order, and a group is written as its newest with the
selection changes of all; nothing ordinary passes an idle answer or a flush marker on either side,
nor a selection change a reply; what has no key is written once, in the order sent; each node's
selection changes are those sent; the urgent messages go in their own order; and all that waits is
written. -/
theorem outbound_faithful {D : Type} (ops : List (QueueOp (Urgent D) (OutpostToCore D))) :
    let s := ({} : Sending (Urgent D) (OutpostToCore D)).run ops
    let sent := ordinaries (sentIn ops)
    (∃ groups : List (Group (OutpostToCore D)),
      s.out=groups.map value ∧
      (∀ key : EventKey,(groups.filter fun g => g.value.key=some key).flatMap items =
        sent.zipIdx.filter fun x => x.1.key=some key) ∧
      (∀ g∈groups,∀ last,g.items.getLast?=some last → newestOf g.value=newestOf last.1) ∧
      (∀ before g after,groups=before++g::after →
        (g.value.barrier=.all →
          (∀ x∈before.flatMap items,x.2<g.first.2) ∧
          ∀ x∈after.flatMap items,g.first.2<x.2) ∧
        (g.value.barrier=.reply →
          (∀ x∈before.flatMap items,x.1.holds=true → x.2<g.first.2) ∧
          ∀ x∈after.flatMap items,x.1.holds=true → g.first.2<x.2))) ∧
    s.out.filter (fun entry => entry.key=(none : Option EventKey)) =
      sent.filter (fun entry => entry.key=(none : Option EventKey)) ∧
    (∀ node,s.out.flatMap (changesOf node)=sent.flatMap (changesOf node)) ∧
    urgents s.written++s.pending.urgent=urgents (sentIn ops) ∧
    (s.run (replicate (s.pending.urgent.length+s.pending.ordinary.length)
      .pop)).pending.isEmpty=true := by
  intro s sent
  have tracks := Sending.tracks_run ops
  obtain ⟨groups,values,orderly⟩ := tracks.groups
  refine ⟨⟨groups,values,?_,fun g _ last => newestOf_value g,?_⟩,?_,?_,tracks.urgent,
    Sending.run_pops s⟩
  · intro key
    rw [flatMap_filter_key,orderly.filter_key]
  · rintro before g after rfl
    obtain ⟨earlier,later⟩ := orderly.around
    have own : g.value.barrier=g.first.1.barrier := g.value_barrier (by simp [items])
    rw [own]
    refine ⟨fun bars => ⟨?_,?_⟩,fun reply => ⟨?_,?_⟩⟩
    · exact fun x inside => earlier x inside (.inr (.inl bars))
    · exact fun x inside => later x inside (.inl bars)
    · exact fun x inside held => earlier x inside (.inr (.inr (.inr (.inl ⟨held,reply⟩))))
    · exact fun x inside held => later x inside (.inr (.inr (.inl ⟨reply,held⟩)))
  · have unkeyed := values_unkeyed groups
    rw [orderly.filter_key,← values] at unkeyed
    refine unkeyed.trans ?_
    conv_rhs => rw [← zipIdx_map_fst 0 sent,filter_map]
    rfl
  · intro node
    have changes := orderly.changes node
    rwa [← values] at changes

/-- An urgent message sent after an idle answer is written before it. -/
theorem urgent_overtakes_idle_answer :
    let s := ({} : Sending (Urgent Nat) (OutpostToCore Nat)).run
      [.push (.ordinary (.message (.idleAnswer 1) [])),.push (.urgent (.pong 0)),.pop]
    s.written=[.urgent (.pong 0)] ∧ s.pending.ordinary=[.message (.idleAnswer 1) []] := by
  decide +kernel

end Verbatim.Outbound
