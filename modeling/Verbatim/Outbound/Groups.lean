import Verbatim.Outbound.Pending
import Mathlib.Data.List.Perm.Basic
import Mathlib.Data.List.Induction
import Mathlib.Data.List.Sort

namespace Verbatim.Outbound

open Merge List Waiting Pending

variable {M K : Type} [Merge M K]

section Queue

/-- A flush marker has no key and bars everything. -/
def Waiting.key : Waiting M → Option K
  | .message m _ => mergeKey m
  | .flushed _ => none

def Waiting.barrier : Waiting M → Barrier
  | .message m _ => Merge.barrier m
  | .flushed _ => .all

def Waiting.ofMessage (entry : M × List Carried) : Waiting M := .message entry.1 entry.2

theorem sinceFlush_split (queue : List (Waiting M)) :
    ∃ (front : List (Waiting M)) (messages : List (M × List Carried)),
      queue=front++messages.map ofMessage ∧
      front.length=sinceFlush queue := by
  induction queue with
  | nil => exact ⟨[],[],rfl,rfl⟩
  | cons entry queue ih =>
    obtain ⟨front,messages,split,length⟩ := ih
    cases entry with
    | flushed done =>
      exact ⟨.flushed done::front,messages,by rw [split]; rfl,by simp [sinceFlush,length]⟩
    | message message touched =>
      by_cases none_flushed : sinceFlush queue=0
      · have empty : front=[] := eq_nil_of_length_eq_zero (length.trans none_flushed)
        refine ⟨[],(message,touched)::messages,?_,by simp [sinceFlush,none_flushed]⟩
        rw [split,empty]
        rfl
      · exact ⟨.message message touched::front,messages,by rw [split]; rfl,
          by simp [sinceFlush,none_flushed,length]⟩

theorem messagesFrom_eq (front : List (Waiting M)) (messages : List (M × List Carried)) :
    messagesFrom front.length (front++messages.map ofMessage) =
      (messages.zipIdx front.length).map fun entry => (entry.2,entry.1.1) := by
  simp only [messagesFrom,zipIdx_append,Nat.zero_add]
  rw [drop_left' (by simp),zipIdx_map,filterMap_map]
  exact filterMap_eq_map' ▸ rfl

variable [DecidableEq K]

/-- What queueing a message does: it goes to the back, or the newest waiting message with its key
comes out and the two go to the back as one. -/
theorem queued_cases (queue : List (Waiting M)) (message : M) (touched : List Carried) :
    queued queue message touched=queue++[.message message touched] ∨
    ∃ key before older olderTouched after across,
      queue=before++.message older olderTouched::after ∧
      mergeKey message=some key ∧ mergeKey older=some key ∧
      mayMerge older message across=true ∧
      (∀ entry∈after,entry.key≠some key ∧ entry.barrier≠.all ∧ entry.barrier.rank≤across.rank) ∧
      queued queue message touched =
        before++after++[.message (merged older message) (touched++olderTouched)] := by
  obtain ⟨front,messages,split,length⟩ := sinceFlush_split queue
  simp only [queued,← length]
  cases place : mergeInto (messagesFrom front.length queue) message with
  | none => exact .inl rfl
  | some place =>
    right
    obtain ⟨key,before,older,after,across,list,named,same,may,others⟩ := mergeInto_eq_some place
    rw [split,messagesFrom_eq] at list
    obtain ⟨numbered,numbered',halves,rfl,later⟩ := map_eq_append_iff.mp list
    obtain ⟨first,numbered',rfl,here,rfl⟩ := map_eq_cons_iff.mp later
    obtain ⟨kept,rest,rfl,rfl,tail⟩ := zipIdx_eq_append_iff.mp halves
    obtain ⟨entry,rest,rfl,rfl,rfl⟩ := zipIdx_eq_cons_iff.mp tail.symm
    cases here
    have whole : queue=(front++kept.map ofMessage) ++
        .message entry.1 entry.2::rest.map ofMessage := by
      rw [split]
      simp [ofMessage]
    have length : front.length+kept.length=(front++kept.map ofMessage).length := by
      simp
    generalize front++kept.map ofMessage=lead at whole length
    refine ⟨key,lead,entry.1,entry.2,rest.map ofMessage,across,whole,named,same,may,?_,?_⟩
    · intro waiting inside
      obtain ⟨after,member,rfl⟩ := mem_map.mp inside
      rw [← zipIdx_map_fst (front.length+kept.length+1) rest] at member
      obtain ⟨numbered,among,rfl⟩ := mem_map.mp member
      exact others (numbered.2,numbered.1.1) (mem_map.mpr ⟨numbered,among,rfl⟩)
    · have here : queue[lead.length]?=some (.message entry.1 entry.2) := by
        rw [whole]
        simp
      have out : queue.eraseIdx lead.length=lead++rest.map ofMessage := by
        rw [whole,eraseIdx_append_of_length_le (Nat.le_refl _)]
        simp
      simp only [length,here,out]

end Queue

section Groups

/-- What merging keeps: only messages that bar nothing are merged, under a key that stays; and one
that may not be moved behind a reply makes what it is merged into such a message. -/
class LawfulMerge (M : Type) (K : outParam Type) [Merge M K] where
  holds : M → Bool
  keyed {message : M} {key : K} (h : mergeKey message=some key) : barrier message=.none
  merged_key {older newer : M} {key : K} (h : mergeKey older=some key)
    (h' : mergeKey newer=some key) : mergeKey (merged older newer)=some key
  merged_holds {older newer : M} {key : K} (h : mergeKey older=some key)
    (h' : mergeKey newer=some key) : holds (merged older newer)=(holds older || holds newer)
  refuses {older newer : M} {crossed : Barrier} (h : mayMerge older newer crossed=true)
    (held : holds older=true) : crossed.rank=0

variable [LawfulMerge M K]

def Waiting.holds : Waiting M → Bool
  | .message m _ => LawfulMerge.holds m
  | .flushed _ => false

def Waiting.join : Waiting M → Waiting M → Waiting M
  | .message older olderTouched,.message newer touched =>
      .message (merged older newer) (touched++olderTouched)
  | _,newer => newer

variable {key : K} {entry : Waiting M}

theorem Waiting.barrier_of_key (h : entry.key=some key) : entry.barrier=.none := by
  cases entry with
  | message message touched => exact LawfulMerge.keyed h
  | flushed done => cases h

theorem Waiting.join_key {older newer : Waiting M} (h : older.key=some key)
    (h' : newer.key=some key) : (older.join newer).key=some key := by
  cases older with
  | flushed done => cases h
  | message message touched =>
    cases newer with
    | flushed done => cases h'
    | message message' touched' => exact LawfulMerge.merged_key h h'

theorem Waiting.join_holds {older newer : Waiting M} (h : older.key=some key)
    (h' : newer.key=some key) : (older.join newer).holds=(older.holds || newer.holds) := by
  cases older with
  | flushed done => cases h
  | message message touched =>
    cases newer with
    | flushed done => cases h'
    | message message' touched' => exact LawfulMerge.merged_holds h h'

abbrev Sent (M : Type) := Waiting M × Nat

/-- The entries sent that are written as one: one alone, or several of one key. -/
structure Group (M : Type) {K : Type} [Merge M K] where
  first : Sent M
  later : List (Sent M)
  alike : later=[] ∨ ∃ key,∀ sent∈first::later,sent.1.key=some key

namespace Group

variable (g : Group M)

def items : List (Sent M) := g.first::g.later

def value : Waiting M :=
  g.later.foldl (fun older newer => older.join newer.1) g.first.1

def alone (sent : Sent M) : Group M := ⟨sent,[],.inl rfl⟩

theorem foldl_join {sent : List (Sent M)} {key : K} (h : entry.key=some key)
    (all : ∀ x∈sent,x.1.key=some key) :
    (sent.foldl (fun older newer => older.join newer.1) entry).key=some key ∧
      (sent.foldl (fun older newer => older.join newer.1) entry).holds =
        (entry.holds || sent.any fun x => x.1.holds) := by
  induction sent generalizing entry with
  | nil => exact ⟨h,by simp⟩
  | cons x sent ih =>
    have first := all x (by simp)
    obtain ⟨key_kept,held⟩ := ih (join_key h first)
      fun y inside => all y (mem_cons_of_mem _ inside)
    refine ⟨key_kept,?_⟩
    rw [foldl_cons,held,join_holds h first,any_cons,Bool.or_assoc]

variable (g : Group M)

theorem value_key {sent : Sent M} (h : sent∈g.items) : g.value.key=sent.1.key := by
  rcases g.alike with single | ⟨key,all⟩
  · simp only [items,single,mem_singleton] at h
    rw [value,single,h]
    rfl
  · rw [all sent h]
    exact (foldl_join (all g.first (by simp)) fun x inside => all x (mem_cons_of_mem _ inside)).1

theorem value_barrier {sent : Sent M} (h : sent∈g.items) : g.value.barrier=sent.1.barrier := by
  rcases g.alike with single | ⟨key,all⟩
  · simp only [items,single,mem_singleton] at h
    rw [value,single,h]
    rfl
  · rw [barrier_of_key (all sent h),barrier_of_key ((g.value_key h).trans (all sent h))]

theorem value_holds : g.value.holds=g.items.any fun x => x.1.holds := by
  rcases g.alike with single | ⟨key,all⟩
  · simp [value,items,single]
  · exact (foldl_join (all g.first (by simp)) fun x inside => all x (mem_cons_of_mem _ inside)).2

def add (sent : Sent M) {key : K} (h : g.value.key=some key)
    (h' : sent.1.key=some key) : Group M where
  first := g.first
  later := g.later++[sent]
  alike := by
    refine .inr ⟨key,?_⟩
    intro x inside
    rcases mem_append.mp (show x∈g.items++[sent] from inside) with old | new
    · rw [← g.value_key old,h]
    · rw [mem_singleton.mp new,h']

theorem items_add (sent : Sent M) {key : K} (h : g.value.key=some key)
    (h' : sent.1.key=some key) : (g.add sent h h').items=g.items++[sent] := rfl

theorem value_add (sent : Sent M) {key : K} (h : g.value.key=some key)
    (h' : sent.1.key=some key) : (g.add sent h h').value=g.value.join sent.1 :=
  foldl_append

end Group

/-- Two entries whose order the queue keeps: one bars everything, one is a reply and the other may
not be moved behind one, or they share their key or are both without. -/
def Bound (a b : Waiting M) : Prop :=
  a.barrier=.all ∨ b.barrier=.all ∨ (a.barrier=.reply ∧ b.holds=true) ∨
    (a.holds=true ∧ b.barrier=.reply) ∨ a.key=b.key

/-- Groups of what was sent: each entry is in one, and those bound keep their order. -/
structure Orderly (groups : List (Group M)) (sent : List (Waiting M)) : Prop where
  all : (groups.flatMap Group.items).Perm sent.zipIdx
  kept : (groups.flatMap Group.items).Pairwise fun x y => Bound x.1 y.1 → x.2<y.2

theorem orderly_nil : Orderly ([] : List (Group M)) [] := ⟨.refl _,.nil⟩

variable {sent : List (Waiting M)}

theorem Orderly.lt {groups : List (Group M)} (h : Orderly groups sent)
    {x : Sent M} (inside : x∈groups.flatMap Group.items) : x.2<sent.length := by
  have member := h.all.mem_iff.mp inside
  have bound := snd_lt_of_mem_zipIdx member
  omega

theorem Orderly.push {groups : List (Group M)} (h : Orderly groups sent) (entry : Waiting M) :
    Orderly (groups++[.alone (entry,sent.length)]) (sent++[entry]) := by
  have items : (groups++[Group.alone (entry,sent.length)]).flatMap Group.items =
      groups.flatMap Group.items++[(entry,sent.length)] := by
    simp [Group.alone,Group.items]
  refine ⟨?_,?_⟩
  · rw [items,zipIdx_append]
    simpa using h.all.append_right [(entry,sent.length)]
  rw [items,pairwise_append]
  refine ⟨h.kept,pairwise_singleton _ _,?_⟩
  intro x inside y last _
  rw [mem_singleton.mp last]
  exact h.lt inside

/-- A group moves to the back with a newer entry of its key, across groups of other keys none of
which bars it. -/
theorem Orderly.merge {before after : List (Group M)} {g : Group M}
    (h : Orderly (before++g::after) sent) {across : Barrier}
    (same : g.value.key=some key) (named : entry.key=some key)
    (others : ∀ other∈after,other.value.key≠some key ∧ other.value.barrier≠.all ∧
      other.value.barrier.rank≤across.rank)
    (free : g.value.holds=true → across.rank=0) :
    Orderly (before++after++[g.add (entry,sent.length) same named]) (sent++[entry]) := by
  have old : (before++g::after).flatMap Group.items =
      before.flatMap Group.items++(g.items++after.flatMap Group.items) := by
    simp
  have new : (before++after++[g.add (entry,sent.length) same named]).flatMap Group.items =
      before.flatMap Group.items++(after.flatMap Group.items++g.items)++[(entry,sent.length)] := by
    simp [Group.items_add]
  have kept := h.kept
  rw [old] at kept
  obtain ⟨first,rest,across_first⟩ := pairwise_append.mp kept
  obtain ⟨own,behind,-⟩ := pairwise_append.mp rest
  have moved : (after.flatMap Group.items++g.items).Perm
      (g.items++after.flatMap Group.items) := perm_append_comm
  -- nothing after the group is bound to it
  have unbound : ∀ x∈after.flatMap Group.items,∀ y∈g.items,¬ Bound x.1 y.1 := by
    intro x inside y among
    obtain ⟨other,member,item⟩ := mem_flatMap.mp inside
    obtain ⟨another,passed,low⟩ := others other member
    rw [other.value_key item] at another
    rw [other.value_barrier item] at passed low
    have mine := (g.value_key among).symm.trans same
    have bars := barrier_of_key mine
    rintro (barred | barred | ⟨reply,held⟩ | ⟨-,reply⟩ | shared)
    · exact passed barred
    · rw [bars] at barred
      cases barred
    · have held' : g.value.holds=true := by
        rw [g.value_holds]
        exact any_eq_true.mpr ⟨y,among,held⟩
      have zero := free held'
      have one : Barrier.reply.rank=1 := rfl
      rw [reply,one] at low
      omega
    · rw [bars] at reply
      cases reply
    · exact another (shared.trans mine)
  have everything : (before.flatMap Group.items ++
      (after.flatMap Group.items++g.items)).Perm sent.zipIdx := by
    refine (List.Perm.append_left _ moved).trans ?_
    rw [← old]
    exact h.all
  refine ⟨?_,?_⟩
  · rw [new,zipIdx_append]
    simpa using everything.append_right [(entry,sent.length)]
  rw [new,pairwise_append]
  refine ⟨?_,pairwise_singleton _ _,?_⟩
  · refine pairwise_append.mpr ⟨first,pairwise_append.mpr ⟨behind,own,?_⟩,?_⟩
    · intro x inside y among bound
      exact absurd bound (unbound x inside y among)
    · intro x inside y among
      exact across_first x inside y (moved.mem_iff.mp among)
  · intro x inside y last _
    rw [mem_singleton.mp last]
    have member := everything.mem_iff.mp inside
    have bound := snd_lt_of_mem_zipIdx member
    omega

end Groups

end Verbatim.Outbound
