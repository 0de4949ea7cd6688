import Verbatim.Core.QueryTable
import Mathlib.Data.List.Perm.Basic
import Mathlib.Data.List.Nodup
import Mathlib.Data.List.Count
import Mathlib.Data.List.Induction

namespace Verbatim.Core.QueryTable

open Framework List State Queries Event

variable {R : Type*}

section Accounts

def Event.givenNumber : Event R → Option QueryId
  | .asked id _ _ => some id
  | _ => none

def Event.endedNumber : Event R → Option QueryId
  | .ended id _ => some id
  | _ => none

def Event.ranNumber : Event R → Option QueryId
  | .ran id _ => some id
  | _ => none

def Event.takenNumber : Event R → Option QueryId
  | .taken id => some id
  | _ => none

def Event.readNumber : Event R → Option QueryId
  | .asked id _ .read => some id
  | _ => none

variable (log : List (Event R))

def given : List QueryId := log.filterMap givenNumber

def ended : List QueryId := log.filterMap endedNumber

def ran : List QueryId := log.filterMap ranNumber

def taken : List QueryId := log.filterMap takenNumber

def reads : List QueryId := log.filterMap readNumber

def AskedOf (id : QueryId) (outpost : OutpostId) : Prop :=
  ∃ asked, asked≠.memory ∧ .asked id outpost asked∈log

variable (log : List (Event R)) (more : List (Event R))

@[simp] theorem given_append : given (log++more)=given log++given more := filterMap_append

@[simp] theorem ended_append : ended (log++more)=ended log++ended more := filterMap_append

@[simp] theorem ran_append : ran (log++more)=ran log++ran more := filterMap_append

@[simp] theorem taken_append : taken (log++more)=taken log++taken more := filterMap_append

variable {id : QueryId}

theorem mem_given {log : List (Event R)} :
    id∈given log ↔ ∃ outpost asked,.asked id outpost asked∈log := by
  simp only [given,mem_filterMap]
  constructor
  · rintro ⟨event,inside,number⟩
    cases event <;> simp only [givenNumber,Option.some.injEq,reduceCtorEq] at number
    subst number
    exact ⟨_,_,inside⟩
  · rintro ⟨outpost,asked,inside⟩
    exact ⟨_,inside,rfl⟩

theorem mem_reads {log : List (Event R)} :
    id∈reads log ↔ ∃ outpost,.asked id outpost .read∈log := by
  simp only [reads,mem_filterMap]
  constructor
  · rintro ⟨event,inside,number⟩
    cases event with
    | asked other outpost asked =>
      cases asked <;> simp only [readNumber,Option.some.injEq,reduceCtorEq] at number
      subst number
      exact ⟨_,inside⟩
    | _ => simp [readNumber] at number
  · rintro ⟨outpost,inside⟩
    exact ⟨_,inside,rfl⟩

theorem reads_sublist : (reads log).Sublist (given log) := by
  induction log with
  | nil => exact .slnil
  | cons event log ih =>
    cases event with
    | asked id outpost asked =>
      cases asked with
      | read => exact ih.cons_cons id
      | watch | memory => exact ih.cons id
    | _ => exact ih

theorem asked_unique {log : List (Event R)} (once : (given log).Nodup) {outpost other : OutpostId}
    {asked how : Asked} (h : .asked id outpost asked∈log) (h' : .asked id other how∈log) :
    outpost=other ∧ asked=how := by
  induction log with
  | nil => cases h
  | cons event log ih =>
    have later : (given log).Nodup := once.sublist ((sublist_cons_self event log).filterMap _)
    have fresh {number : QueryId} {first : OutpostId} {kind : Asked}
        (same : event=.asked number first kind) : number∉given log := by
      subst same
      exact (nodup_cons.mp once).1
    rcases mem_cons.mp h with first | h
    · rcases mem_cons.mp h' with same | h'
      · cases first.trans same.symm
        exact ⟨rfl,rfl⟩
      · exact absurd (mem_given.mpr ⟨_,_,h'⟩) (fresh first.symm)
    · rcases mem_cons.mp h' with first | h'
      · exact absurd (mem_given.mpr ⟨_,_,h⟩) (fresh first.symm)
      · exact ih later h h'

end Accounts

section Changes

/-- What of an open query no change but its turning to Core's memory changes. -/
def key (entry : QueryId × Open (Then R)) : QueryId × OutpostId × Asked :=
  (entry.1,entry.2.outpost,entry.2.asked)

section Keys

variable {id : QueryId}

theorem lookup_none {q : Queries (Then R)} (h : q.lookup id=none) : id∉q.numbers := by
  intro inside
  obtain ⟨entry,member,number⟩ := mem_map.mp inside
  rw [Queries.lookup,Option.map_eq_none_iff,find?_eq_none] at h
  exact h entry member (by simpa using number)

variable (q : Queries (Then R))

theorem numbers_remove (id : QueryId) : (q.remove id).numbers=q.numbers.filter (·≠id) := by
  simp only [numbers,remove,filter_map]
  rfl

theorem keys_alter (id : QueryId) {f : Open (Then R) → Open (Then R)}
    (same : ∀ query,(f query).outpost=query.outpost ∧ (f query).asked=query.asked) :
    (q.alter id f).entries.map key=q.entries.map key := by
  simp only [alter,map_map]
  refine map_congr_left fun entry _ => ?_
  by_cases number : entry.1=id
  · simp [key,number,same]
  · simp [number]

theorem keys_setTrace (first : QueryId) (trace : Option TraceId) (effect : Effect)
    (q : Queries (Then R)) : (setTrace first trace effect q).entries.map key=q.entries.map key ∧
      (setTrace first trace effect q).next=q.next := by
  induction effect generalizing trace with
  | forKey key' inner ih => exact ih (some key')
  | withdraw outpost id | other => exact ⟨rfl,rfl⟩
  | fetch id node | text id node | activate id node =>
    simp only [setTrace]
    split
    · exact ⟨keys_alter q id fun _ => ⟨rfl,rfl⟩,rfl⟩
    · exact ⟨rfl,rfl⟩

theorem keys_setTraces (first : QueryId) (effects : List Effect) (input : Option TraceId) :
    (setTraces q first effects input).entries.map key=q.entries.map key ∧
      (setTraces q first effects input).next=q.next := by
  simp only [setTraces]
  split
  · exact ⟨rfl,rfl⟩
  next more =>
  clear more
  induction effects generalizing q with
  | nil => exact ⟨rfl,rfl⟩
  | cons effect effects ih =>
    have one := keys_setTrace first input effect q
    have rest := ih (setTrace first input effect q)
    exact ⟨rest.1.trans one.1,rest.2.trans one.2⟩

theorem keys_findMut (which : Then R → Bool) (f : Then R → Then R) :
    (q.findMut which f).entries.map key=q.entries.map key := by
  simp only [findMut]
  split
  · exact keys_alter q _ fun _ => ⟨rfl,rfl⟩
  · rfl

theorem keys_forget (which : Then R → Bool) :
    ((q.forget which .nothing).entries.map key).Sublist (q.entries.map key) := by
  refine filterMap_sublist_map ?_ q.entries
  intro entry kept one
  obtain rfl | rfl := forgetOne_eq one <;> rfl

theorem numbers_eq : q.numbers=(q.entries.map key).map Prod.fst := by
  simp only [numbers,map_map]
  rfl

variable {outpost : OutpostId}

theorem mem_askedOf {q : Queries (Then R)} :
    id∈askedOf q outpost ↔ ∃ asked,asked≠.memory ∧ (id,outpost,asked)∈q.entries.map key := by
  simp only [askedOf,mem_map,mem_filter,decide_eq_true_eq,key]
  constructor
  · rintro ⟨entry,⟨inside,same,sent⟩,rfl⟩
    exact ⟨entry.2.asked,sent,entry,inside,by rw [same]⟩
  rintro ⟨asked,sent,entry,inside,same⟩
  cases same
  exact ⟨entry,⟨inside,rfl,sent⟩,rfl⟩

end Keys

def Op.gives : Op R → Bool
  | .ask _ _ | .askMemory _ _ => true
  | _ => false

/-- What a step does to the table, what it logs, and whether it gives a number: a query is asked;
nothing a query was asked as is changed; a query is turned to Core's memory; one ends and its
continuation runs; or some are forgotten. -/
inductive Change (c : State R) : Bool → Queries (Then R) → List (Event R) → Prop
  | asks (query : Open (Then R)) :
      Change c true (c.queries.record query) [.asked c.queries.next query.outpost query.asked]
  | keeps (q : Queries (Then R)) (same : q.entries.map key=c.queries.entries.map key)
      (next : q.next=c.queries.next) : Change c false q []
  | takes (id : QueryId) (trace : Option TraceId) (inside : id∈c.queries.numbers) :
      Change c false (c.queries.answerFromMemoryLater id trace) [.taken id]
  | ends (id : QueryId) (query : Open (Then R)) (cause : Cause)
      (found : c.queries.lookup id=some query)
      (why : ∀ outpost,cause=.gone outpost → ∃ ids,(outpost,ids)∈c.loops ∧ id∈ids) :
      Change c false (c.queries.remove id) (.ended id cause::runs id query.continues)
  | forgets (q : Queries (Then R)) (kept : (q.entries.map key).Sublist (c.queries.entries.map key))
      (next : q.next=c.queries.next) : Change c false q (forgotten c.queries q)

variable (c : State R)

theorem Change.same : Change c false c.queries [] := .keeps _ rfl rfl

theorem finish_change (id : QueryId) (cause : Cause)
    (why : ∀ outpost,cause=.gone outpost → ∃ ids,(outpost,ids)∈c.loops ∧ id∈ids) :
    ∃ events,Change c false (c.finish id cause).queries events ∧
      (c.finish id cause).log=c.log++events := by
  simp only [finish]
  cases found : c.queries.lookup id with
  | none => exact ⟨[],.same c,by simp⟩
  | some query => exact ⟨_,.ends id query cause found why,rfl⟩

theorem finish_loops (id : QueryId) (cause : Cause) : (c.finish id cause).loops=c.loops := by
  simp only [finish]
  split <;> rfl

theorem answerFromMemoryLater_absent {q : Queries (Then R)} {id : QueryId} (absent : id∉q.numbers)
    (trace : Option TraceId) : q.answerFromMemoryLater id trace=q := by
  have same : ∀ entry∈q.entries,(if entry.1=id then
      (entry.1,({entry.2 with asked := .memory, trace := trace} : Open (Then R))) else entry) =
        entry := by
    intro entry inside
    exact if_neg fun number => absent (mem_map.mpr ⟨entry,inside,number⟩)
  simp only [answerFromMemoryLater,alter,map_congr_left same,map_id']

theorem step_change (op : Op R) :
    ∃ events,Change c op.gives (c.step op).queries events ∧ (c.step op).log=c.log++events := by
  cases op with
  | ask asking continues =>
    cases asking <;> exact ⟨_,.asks _,rfl⟩
  | askMemory node continues => exact ⟨_,.asks ⟨node.outpost,none,.memory,continues⟩,rfl⟩
  | answerFromMemoryLater id trace =>
    simp only [step]
    by_cases inside : id∈c.queries.numbers
    · exact ⟨_,.takes id trace inside,by rw [if_pos inside]⟩
    refine ⟨[],?_,by rw [if_neg inside]⟩
    rw [answerFromMemoryLater_absent inside]
    exact .same c
  | replace id continues =>
    exact ⟨[],.keeps _ (keys_alter c.queries id fun _ => ⟨rfl,rfl⟩) rfl,by simp [step]⟩
  | findMut which f =>
    exact ⟨[],.keeps _ (keys_findMut c.queries _ f) (next_findMut f),by simp [step]⟩
  | forget which => exact ⟨_,.forgets _ (keys_forget c.queries _) rfl,rfl⟩
  | withdraw id =>
    simp only [step,withdraw]
    cases found : c.queries.lookup id with
    | none => exact ⟨[],.same c,by simp⟩
    | some query => exact ⟨_,.ends id query .withdrawal found (fun _ other => by cases other),rfl⟩
  | forgetMemory ids => exact ⟨_,.forgets _ (filter_sublist.map _) rfl,rfl⟩
  | setTraces first effects input =>
    have same := keys_setTraces c.queries first effects input
    exact ⟨[],.keeps _ same.1 same.2,by simp [step]⟩
  | answered id outpost =>
    simp only [step,answered]
    cases c.queries.lookup id with
    | none => exact ⟨[],.same c,by simp⟩
    | some query =>
      dsimp only
      split
      · exact ⟨[],.same c,by simp⟩
      · exact finish_change c id .answer fun _ other => by cases other
  | answerFromMemory id => exact finish_change c id .memory fun _ other => by cases other
  | outpostGone outpost => exact ⟨[],.same c,by simp [step]⟩
  | nextGone =>
    simp only [step]
    cases running : c.loops with
    | nil => exact ⟨[],.same c,by simp⟩
    | cons top loops =>
      obtain ⟨outpost,ids⟩ := top
      cases ids with
      | nil => exact ⟨[],.same c,by simp⟩
      | cons id ids =>
        simp only [finish]
        cases found : c.queries.lookup id with
        | none => exact ⟨[],.same c,by simp⟩
        | some query =>
          refine ⟨_,.ends id query (.gone outpost) found ?_,rfl⟩
          rintro other ⟨⟩
          exact ⟨id::ids,by simp [running],by simp⟩

end Changes

variable (ops : List (Op R))

def asksIn : Nat := (ops.filter Op.gives).length

variable (id : QueryId) (continues : Then R)

theorem given_runs : given (runs id continues)=[] := by
  cases continues <;> rfl

variable (before after : Queries (Then R))

theorem given_forgotten : given (forgotten before after)=[] := by
  simp [forgotten,given,givenNumber,Function.comp_def]

/-- The numbers after `n` were given: from nought on, the last over and over. -/
structure Numbered (n : Nat) (c : State R) : Prop where
  next : c.queries.next=min n u64Max
  given : given c.log=(List.range n).map (min · u64Max)

variable {c : State R} {n : Nat} {gives : Bool} {q : Queries (Then R)} {events : List (Event R)}

theorem Change.numbered (change : Change c gives q events) (h : Numbered n c)
    (loops : List (OutpostId × List QueryId)) :
    Numbered (n+gives.toNat) ⟨q,loops,c.log++events⟩ := by
  have quiet (none_given : given events=[]) :
      given (c.log++events)=(range n).map (min · u64Max) := by
    rw [given_append,none_given,append_nil,h.given]
  cases change with
  | asks query =>
    refine ⟨?_,?_⟩
    · show satAdd c.queries.next 1=min (n+1) u64Max
      rw [h.next]
      unfold satAdd
      omega
    · simp only [given_append,h.given,Bool.toNat_true,range_succ,map_append,h.next]
      rfl
  | keeps _ same next => exact ⟨next.trans h.next,quiet rfl⟩
  | takes id trace inside => exact ⟨h.next,quiet rfl⟩
  | ends id query cause found why => exact ⟨h.next,quiet (given_runs id query.continues)⟩
  | forgets _ kept next => exact ⟨next.trans h.next,quiet (given_forgotten _ _)⟩

theorem asksIn_singleton (op : Op R) : asksIn [op]=op.gives.toNat := by
  cases gives : op.gives <;> simp [asksIn,gives]

theorem Numbered.step (h : Numbered n c) (op : Op R) :
    Numbered (n+asksIn [op]) (c.step op) := by
  obtain ⟨events,change,log⟩ := step_change c op
  have numbered := change.numbered h (c.step op).loops
  rwa [← log,← asksIn_singleton] at numbered

theorem asksIn_append (ops more : List (Op R)) : asksIn (ops++more)=asksIn ops+asksIn more := by
  simp [asksIn]

theorem run_append (c : State R) (ops more : List (Op R)) :
    c.run (ops++more)=(c.run ops).run more := foldl_append

theorem numbered_run : Numbered (asksIn ops) (run {} ops) := by
  induction ops using reverseRecOn with
  | nil => exact ⟨by simp [asksIn,run],rfl⟩
  | append_singleton ops op ih =>
    rw [asksIn_append,run_append]
    exact ih.step op

theorem Numbered.nodup (h : Numbered n c) (few : n≤u64Max+1) :
    (QueryTable.given c.log).Nodup := by
  rw [h.given]
  refine List.Nodup.map_on ?_ nodup_range
  intro a ha b hb same
  have below := mem_range.mp ha
  have below' := mem_range.mp hb
  have same : min a u64Max=min b u64Max := same
  omega

/-- The table beside the account of its run. -/
structure Sound (c : State R) : Prop where
  /-- Every number given is of a query ended or open, once. -/
  settled : (given c.log).Perm (ended c.log++c.queries.numbers)
  /-- A continuation is run as its query ends. -/
  ran : (ran c.log).Sublist (ended c.log)
  /-- An open query is as it was asked, or was turned to Core's memory. -/
  recorded : ∀ id outpost asked,(id,outpost,asked)∈c.queries.entries.map key →
    ∃ kind,.asked id outpost kind∈c.log ∧
      (asked=kind ∧ id∉taken c.log ∨ asked=.memory ∧ id∈taken c.log)
  taken : ∀ id∈taken c.log,id∈given c.log
  /-- An outpost's end ends, and has still to end, only what the outpost was asked. -/
  gone : ∀ id outpost,.ended id (.gone outpost)∈c.log → AskedOf c.log id outpost
  running : ∀ outpost ids,(outpost,ids)∈c.loops → ∀ id∈ids,AskedOf c.log id outpost

theorem AskedOf.append {log : List (Event R)} {id : QueryId}
    (h : AskedOf log id outpost) (more : List (Event R)) : AskedOf (log++more) id outpost := by
  obtain ⟨asked,sent,inside⟩ := h
  exact ⟨asked,sent,mem_append_left _ inside⟩

theorem ended_runs : ended (runs id continues)=[] := by
  cases continues <;> rfl

theorem taken_runs : taken (runs id continues)=[] := by
  cases continues <;> rfl

theorem ran_runs : (ran (runs id continues)).Sublist [id] := by
  cases continues
  · exact nil_sublist _
  · exact List.Sublist.refl _

theorem ended_forgotten :
    ended (forgotten before after)=before.numbers.filter (·∉after.numbers) := by
  simp [forgotten,ended,endedNumber,filterMap_map,Function.comp_def]

theorem mem_forgotten {before after : Queries (Then R)} {event : Event R}
    (h : event∈forgotten before after) : ∃ id,event=.ended id .forgotten := by
  obtain ⟨id,-,rfl⟩ := mem_map.mp h
  exact ⟨id,rfl⟩

theorem taken_forgotten : taken (forgotten before after)=[] := by
  simp [forgotten,taken,takenNumber,Function.comp_def]

theorem ran_forgotten : ran (forgotten before after)=[] := by
  simp [forgotten,ran,ranNumber,Function.comp_def]

theorem mem_runs {id : QueryId} {continues : Then R} {event : Event R}
    (h : event∈runs id continues) : ∃ rule,event=.ran id rule := by
  cases continues with
  | nothing => cases h
  | rule rule => exact ⟨rule,mem_singleton.mp h⟩

theorem perm_filter_append {numbers kept : List QueryId} (once : numbers.Nodup)
    (h : kept.Sublist numbers) : numbers.Perm (numbers.filter (·∉kept)++kept) := by
  refine (perm_ext_iff_of_nodup once ?_).mpr fun id => ?_
  · refine nodup_append'.mpr ⟨once.filter _,once.sublist h,?_⟩
    intro id left right
    exact absurd right (by simpa using (mem_filter.mp left).2)
  · simp only [mem_append,mem_filter,decide_eq_true_eq]
    constructor
    · intro inside
      by_cases among : id∈kept
      · exact .inr among
      · exact .inl ⟨inside,among⟩
    · rintro (⟨inside,-⟩ | among)
      · exact inside
      · exact h.subset among

theorem Sound.nodup_numbers (h : Sound c) (once : (given c.log).Nodup) :
    c.queries.numbers.Nodup :=
  (nodup_append'.mp (h.settled.nodup_iff.mp once)).2.1

variable {id}

theorem Sound.not_open (h : Sound c) (once : (given c.log).Nodup)
    (over_with : id∈ended c.log) : id∉c.queries.numbers :=
  fun inside => (nodup_append'.mp (h.settled.nodup_iff.mp once)).2.2 over_with inside

namespace Change

variable (change : Change c gives q events)

include change

theorem keys {asked : Asked} (h : (id,outpost,asked)∈q.entries.map key) :
    (.asked id outpost asked∈events ∧ taken events=[]) ∨
      ∃ was,(id,outpost,was)∈c.queries.entries.map key ∧
        (asked=was ∧ id∉taken events ∨ asked=.memory ∧ id∈taken events) := by
  have stays (none_taken : taken events=[])
      (inside : (id,outpost,asked)∈c.queries.entries.map key) :
      ∃ was,(id,outpost,was)∈c.queries.entries.map key ∧
        (asked=was ∧ id∉taken events ∨ asked=.memory ∧ id∈taken events) :=
    ⟨asked,inside,.inl ⟨rfl,none_taken ▸ not_mem_nil⟩⟩
  cases change with
  | asks query =>
    simp only [record,map_append,mem_append] at h
    rcases h with h | new
    · exact .inr (stays rfl ((filter_sublist.map key).subset h))
    simp only [map_cons,map_nil,mem_singleton,key,Prod.mk.injEq] at new
    obtain ⟨rfl,rfl,rfl⟩ := new
    exact .inl ⟨mem_singleton.mpr rfl,rfl⟩
  | keeps _ same next => exact .inr (stays rfl (same ▸ h))
  | takes number trace inside =>
    obtain ⟨entry,among,same⟩ := mem_map.mp h
    obtain ⟨entry,was,rfl⟩ := mem_map.mp among
    by_cases turned : entry.1=number
    · simp only [if_pos turned,key,Prod.mk.injEq] at same
      obtain ⟨rfl,rfl,rfl⟩ := same
      exact .inr ⟨_,mem_map.mpr ⟨entry,was,rfl⟩,.inr ⟨rfl,mem_singleton.mpr turned⟩⟩
    · simp only [if_neg turned] at same
      refine .inr ⟨asked,mem_map.mpr ⟨entry,was,same⟩,.inl ⟨rfl,fun among => turned ?_⟩⟩
      exact (congrArg Prod.fst same).trans (mem_singleton.mp among)
  | ends number query cause found why =>
    exact .inr (stays (taken_runs number query.continues) ((filter_sublist.map key).subset h))
  | forgets _ kept next => exact .inr (stays (taken_forgotten _ _) (kept.subset h))

theorem numbers (h : id∈q.numbers) : id∈c.queries.numbers ∨ id∈given events := by
  obtain ⟨entry,inside,rfl⟩ := mem_map.mp h
  rcases change.keys (mem_map.mpr ⟨entry,inside,rfl⟩) with ⟨asked,-⟩ | ⟨was,before,-⟩
  · exact .inr (mem_given.mpr ⟨_,_,asked⟩)
  · rw [numbers_eq]
    exact .inl (mem_map.mpr ⟨_,before,rfl⟩)

theorem perm (once : c.queries.numbers.Nodup) (fresh : ∀ id∈given events,id∉c.queries.numbers) :
    (c.queries.numbers++given events).Perm (ended events++q.numbers) := by
  cases change with
  | asks query =>
    have unused := fresh c.queries.next (mem_singleton.mpr rfl)
    refine .of_eq ?_
    rw [Queries.record_fresh unused]
    simp only [Queries.numbers,map_append]
    rfl
  | keeps _ same next =>
    rw [numbers_eq,← same,← numbers_eq]
    exact .of_eq (append_nil _)
  | takes id trace inside =>
    rw [Queries.answerFromMemoryLater,Queries.numbers_alter]
    exact .of_eq (append_nil _)
  | ends id query cause found why =>
    have inside : id∈c.queries.numbers := mem_map.mpr ⟨_,Queries.lookup_mem found,rfl⟩
    have erased : c.queries.numbers.erase id=(c.queries.remove id).numbers := by
      rw [numbers_remove,once.erase_eq_filter]
      refine filter_congr fun other _ => ?_
      by_cases same : other=id <;> simp [same]
    show (_++given (runs id query.continues)).Perm (id::ended (runs id query.continues)++_)
    rw [given_runs,ended_runs,append_nil,← erased]
    exact perm_cons_erase inside
  | forgets _ kept next =>
    rw [given_forgotten,ended_forgotten,append_nil]
    refine perm_filter_append once ?_
    rw [numbers_eq,numbers_eq]
    exact kept.map Prod.fst

theorem ran : (ran events).Sublist (ended events) := by
  cases change with
  | ends id query cause found why =>
    show (ran (runs id query.continues)).Sublist (id::ended (runs id query.continues))
    rw [ended_runs]
    exact ran_runs id query.continues
  | forgets _ kept next =>
    rw [ran_forgotten]
    exact nil_sublist _
  | _ => exact nil_sublist _

theorem taken (h : id∈taken events) : id∈c.queries.numbers := by
  cases change with
  | takes number trace inside =>
    rw [mem_singleton.mp h]
    exact inside
  | ends number query cause found why =>
    have none_taken : taken (.ended number cause::runs number query.continues) =
        [] := taken_runs number query.continues
    rw [none_taken] at h
    cases h
  | forgets _ kept next =>
    rw [taken_forgotten] at h
    cases h
  | _ => cases h

theorem gone (h : .ended id (.gone outpost)∈events) :
    ∃ ids,(outpost,ids)∈c.loops ∧ id∈ids := by
  cases change with
  | asks query | takes number trace inside => cases mem_singleton.mp h
  | keeps _ same next => cases h
  | ends number query cause found why =>
    rcases mem_cons.mp h with same | ran
    · obtain ⟨rfl,rfl⟩ := ended.inj same
      exact why outpost rfl
    · obtain ⟨rule,impossible⟩ := mem_runs ran
      cases impossible
  | forgets _ kept next =>
    obtain ⟨number,impossible⟩ := mem_forgotten h
    cases impossible

theorem sound (h : Sound c)
    (once : (given (c.log++events)).Nodup) : Sound ⟨q,c.loops,c.log++events⟩ := by
  rw [given_append] at once
  obtain ⟨before,-,apart⟩ := nodup_append'.mp once
  have known : ∀ id∈c.queries.numbers,id∈given c.log := fun id inside =>
    h.settled.mem_iff.mpr (mem_append_right _ inside)
  refine ⟨?_,?_,?_,?_,?_,?_⟩
  · rw [given_append,ended_append,append_assoc]
    refine (h.settled.append_right _).trans ?_
    rw [append_assoc]
    exact (change.perm (h.nodup_numbers before)
      fun id new inside => apart (known id inside) new).append_left _
  · rw [ran_append,ended_append]
    exact h.ran.append change.ran
  · intro id outpost asked inside
    rw [taken_append]
    rcases change.keys inside with ⟨logged,none_taken⟩ | ⟨was,inside,how⟩
    · refine ⟨asked,mem_append_right _ logged,.inl ⟨rfl,?_⟩⟩
      rw [none_taken,append_nil]
      exact fun old => apart (h.taken id old) (mem_given.mpr ⟨_,_,logged⟩)
    obtain ⟨kind,logged,earlier⟩ := h.recorded id outpost was inside
    refine ⟨kind,mem_append_left _ logged,?_⟩
    simp only [mem_append]
    rcases how with ⟨rfl,untaken⟩ | ⟨memory,taken⟩
    · exact earlier.imp (fun same => ⟨same.1,fun old => old.elim same.2 untaken⟩)
        fun turned => ⟨turned.1,.inl turned.2⟩
    · exact .inr ⟨memory,.inr taken⟩
  · intro id inside
    rw [taken_append] at inside
    rw [given_append]
    exact mem_append_left _ ((mem_append.mp inside).elim (h.taken id)
      fun new => known id (change.taken new))
  · intro id outpost inside
    rcases mem_append.mp inside with inside | inside
    · exact (h.gone id outpost inside).append events
    · obtain ⟨ids,loop,among⟩ := change.gone inside
      exact (h.running outpost ids loop id among).append events
  · exact fun outpost ids inside id among => (h.running outpost ids inside id among).append events

end Change

/-- Whether an operation begins an outpost's end, or is a turn of one. -/
def Op.begins : Op R → Bool
  | .outpostGone _ => true
  | _ => false

def Op.turns : Op R → Bool
  | .nextGone => true
  | _ => false

theorem step_loops_same (c : State R) {op : Op R} (begins : op.begins=false)
    (turns : op.turns=false) : (c.step op).loops=c.loops := by
  cases op with
  | ask asking continues => cases asking <;> rfl
  | withdraw id =>
    simp only [step]
    split <;> rfl
  | answered id outpost =>
    simp only [step,answered]
    split
    · rfl
    split
    · rfl
    · exact finish_loops _ _ _
  | answerFromMemory id => exact finish_loops _ _ _
  | outpostGone outpost => cases begins
  | nextGone => cases turns
  | _ => rfl

variable {ids : List QueryId}

/-- The loops after a step: each was running with those of its queries and maybe one more, or is
of an outpost that ended now. -/
theorem step_loops (c : State R) (op : Op R) (h : (outpost,ids)∈(c.step op).loops) :
    (∃ more,(outpost,more)∈c.loops ∧ ∀ id∈ids,id∈more) ∨ ids=askedOf c.queries outpost := by
  have kept (same : (c.step op).loops=c.loops) :
      (∃ more,(outpost,more)∈c.loops ∧ ∀ id∈ids,id∈more) ∨ ids=askedOf c.queries outpost :=
    .inl ⟨ids,same ▸ h,fun _ inside => inside⟩
  cases op with
  | outpostGone other =>
    rcases mem_cons.mp h with new | inside
    · cases new
      exact .inr rfl
    · exact .inl ⟨ids,inside,fun _ among => among⟩
  | nextGone =>
    simp only [step] at h
    split at h
    · exact .inl ⟨ids,h,fun _ among => among⟩
    · next other loops running =>
      rw [running]
      exact .inl ⟨ids,mem_cons_of_mem _ h,fun _ among => among⟩
    · next other id rest loops running =>
      rw [finish_loops] at h
      rw [running]
      rcases mem_cons.mp h with top | inside
      · cases top
        exact .inl ⟨id::ids,by simp,fun _ among => mem_cons_of_mem _ among⟩
      · exact .inl ⟨ids,mem_cons_of_mem _ inside,fun _ among => among⟩
  | _ => exact kept (step_loops_same c rfl rfl)

theorem Sound.askedOf (h : Sound c) (inside : id∈askedOf c.queries outpost) :
    AskedOf c.log id outpost ∧ id∉QueryTable.taken c.log := by
  obtain ⟨asked,sent,member⟩ := mem_askedOf.mp inside
  obtain ⟨kind,logged,⟨rfl,untaken⟩ | ⟨memory,-⟩⟩ := h.recorded id outpost asked member
  · exact ⟨⟨asked,sent,logged⟩,untaken⟩
  · exact absurd memory sent

theorem Sound.step (h : Sound c) (op : Op R)
    (once : (given (c.step op).log).Nodup) : Sound (c.step op) := by
  obtain ⟨events,change,log⟩ := step_change c op
  rw [log] at once
  have sound := change.sound h once
  refine ⟨log ▸ sound.settled,log ▸ sound.ran,log ▸ sound.recorded,log ▸ sound.taken,
    log ▸ sound.gone,?_⟩
  intro outpost ids loop id among
  rw [log]
  rcases step_loops c op loop with ⟨more,running,rest⟩ | rfl
  · exact (h.running outpost more running id (rest id among)).append events
  · exact (h.askedOf among).1.append events

theorem sound_empty : Sound ({} : State R) where
  settled := List.Perm.refl _
  ran := List.Sublist.refl _
  recorded := by simp
  taken := by simp [taken]
  gone := by simp
  running := by simp

theorem sound_run (few : asksIn ops≤u64Max+1) : Sound (run {} ops) := by
  induction ops using reverseRecOn with
  | nil => exact sound_empty
  | append_singleton ops op ih =>
    have fewer : asksIn ops≤u64Max+1 := by
      rw [asksIn_append] at few
      omega
    have once := (numbered_run (ops++[op])).nodup few
    rw [run_append] at once ⊢
    exact (ih fewer).step op once

section Gone

theorem step_numbers (op : Op R) (once : (given (c.step op).log).Nodup)
    (old : id∈given c.log) (h : id∈(c.step op).queries.numbers) : id∈c.queries.numbers := by
  obtain ⟨events,change,log⟩ := step_change c op
  rcases change.numbers h with before | new
  · exact before
  · rw [log,given_append] at once
    exact absurd new ((nodup_append'.mp once).2.2 old)

variable (c)

theorem not_open_finish (id : QueryId) (cause : Cause) :
    id∉(c.finish id cause).queries.numbers := by
  simp only [finish]
  cases found : c.queries.lookup id with
  | none => exact lookup_none found
  | some query => simp [numbers_remove]

/-- An outpost's end is done with its queries, or its loop runs at its depth with those left. -/
def Ending (ids : List QueryId) (depth : Nat) (c : State R) : Prop :=
  (∀ id∈ids,id∉c.queries.numbers) ∨
    ∃ above outpost left below,c.loops=above++(outpost,left)::below ∧
      below.length=depth ∧ ∀ id∈ids,id∈c.queries.numbers → id∈left

theorem Ending.step {depth : Nat} {c : State R} (h : Ending ids depth c)
    (old : ∀ id∈ids,id∈given c.log) (op : Op R) (once : (given (c.step op).log).Nodup) :
    Ending ids depth (c.step op) := by
  have back : ∀ id∈ids,id∈(c.step op).queries.numbers → id∈c.queries.numbers :=
    fun id among => step_numbers op once (old id among)
  rcases h with done | ⟨above,outpost,left,below,loops,deep,rest⟩
  · exact .inl fun id among inside => done id among (back id among inside)
  have unmoved (same : ∃ more,(c.step op).loops=more++(outpost,left)::below) :
      Ending ids depth (c.step op) := by
    obtain ⟨more,same⟩ := same
    exact .inr ⟨more,outpost,left,below,same,deep,
      fun id among inside => rest id among (back id among inside)⟩
  have kept (same : (c.step op).loops=c.loops) : Ending ids depth (c.step op) :=
    unmoved ⟨above,same.trans loops⟩
  cases op with
  | outpostGone other =>
    refine unmoved ⟨(other,askedOf c.queries other)::above,?_⟩
    simp only [State.step,loops]
    rfl
  | nextGone =>
    cases above with
    | cons top above =>
      -- a loop begun later takes its turn or returns
      obtain ⟨other,turns⟩ := top
      cases turns with
      | nil => exact unmoved ⟨above,by simp [State.step,loops]⟩
      | cons id turns =>
        exact unmoved ⟨(other,turns)::above,by simp [State.step,loops,finish_loops]⟩
    | nil =>
      cases left with
      | nil => exact .inl (fun id among inside => by
          simpa using rest id among (back id among inside))
      | cons id left =>
        have stepped : c.step .nextGone =
            ({c with loops := (outpost,left)::below}.finish id (.gone outpost)) := by
          simp [State.step,loops]
        refine .inr ⟨[],outpost,left,below,by rw [stepped,finish_loops]; rfl,deep,?_⟩
        intro other among inside
        rcases mem_cons.mp (rest other among (back other among inside)) with rfl | later
        · rw [stepped] at inside
          exact absurd inside (not_open_finish _ _ _)
        · exact later
  | _ => exact kept (step_loops_same c rfl rfl)

theorem run_log (ops : List (Op R)) : c.log <+: (c.run ops).log := by
  induction ops generalizing c with
  | nil => exact prefix_refl _
  | cons op ops ih =>
    obtain ⟨events,-,log⟩ := step_change c op
    exact (log ▸ prefix_append c.log events).trans (ih (c.step op))

variable {ops : List (Op R)}

theorem Ending.run {depth : Nat} {c : State R} {n : Nat} (h : Ending ids depth c)
    (old : ∀ id∈ids,id∈given c.log) (numbered : Numbered n c) (few : n+asksIn ops≤u64Max+1) :
    Ending ids depth (c.run ops) := by
  induction ops generalizing c n with
  | nil => exact h
  | cons op ops ih =>
    have split : asksIn (op::ops)=asksIn [op]+asksIn ops := asksIn_append [op] ops
    have next := numbered.step op
    have once := next.nodup (by omega)
    have log : c.log <+: (c.step op).log := run_log c [op]
    exact ih (h.step old op once) (fun id among => (log.filterMap _).subset (old id among)) next
      (by omega)

theorem step_loops_le {op : Op R} (begins : op.begins=false) :
    (c.step op).loops.length≤c.loops.length := by
  cases turns : op.turns with
  | false => rw [step_loops_same c begins turns]
  | true =>
    cases op with
    | nextGone =>
      simp only [step]
      split
      · exact le_rfl
      next loops running => simp [running]
      next loops running => simp [running,finish_loops]
    | _ => cases turns

theorem run_loops_le (begins : ∀ op∈ops,op.begins=false) :
    (c.run ops).loops.length≤c.loops.length := by
  induction ops generalizing c with
  | nil => exact le_rfl
  | cons op ops ih =>
    have rest := ih (c.step op) fun other inside => begins other (mem_cons_of_mem _ inside)
    exact rest.trans (step_loops_le c (begins op (by simp)))

theorem run_returns {c : State R} {left : List QueryId} {below : List (OutpostId × List QueryId)}
    (loops : c.loops=(outpost,left)::below) (begins : ∀ op∈ops,op.begins=false)
    (enough : left.length<ops.countP Op.turns) : (c.run ops).loops.length≤below.length := by
  induction ops generalizing c left with
  | nil => cases enough
  | cons op ops ih =>
    have later : ∀ other∈ops,other.begins=false :=
      fun other inside => begins other (mem_cons_of_mem _ inside)
    cases turns : op.turns with
    | false =>
      refine ih ((step_loops_same c (begins op (by simp)) turns).trans loops) later ?_
      simpa [countP_cons,turns] using enough
    | true =>
      cases op with
      | nextGone =>
        cases left with
        | nil =>
          have returned : (c.step .nextGone).loops=below := by simp [step,loops]
          exact returned ▸ run_loops_le (c.step .nextGone) later
        | cons id left =>
          have turned : (c.step .nextGone).loops=(outpost,left)::below := by
            simp [step,loops,finish_loops]
          refine ih turned later ?_
          simpa [countP_cons,turns] using enough
      | _ => cases turns

end Gone

/-- An answer that no open query waits for: of another outpost than the one asked, to a query Core
answers, or to one that ended. -/
def Stale (log : List (Event R)) (id : QueryId) (outpost : OutpostId) : Prop :=
  ¬ AskedOf log id outpost ∨ id∈taken log ∨ id∈ended log

theorem Sound.answered_stale (h : Sound c) (once : (given c.log).Nodup)
    (stale : Stale c.log id outpost) : c.step (.answered id outpost)=c := by
  simp only [State.step,State.answered]
  cases found : c.queries.lookup id with
  | none => rfl
  | some query =>
    dsimp only
    by_cases dropped : query.outpost≠outpost ∨ query.asked=.memory
    · rw [if_pos dropped]
    exfalso
    obtain ⟨same,sent⟩ := not_or.mp dropped
    have entry := lookup_mem found
    have inside : id∈QueryTable.askedOf c.queries outpost :=
      mem_askedOf.mpr ⟨query.asked,sent,mem_map.mpr ⟨_,entry,by simp [key,not_not.mp same]⟩⟩
    have asked := h.askedOf inside
    rcases stale with other | taken | finished
    · exact other asked.1
    · exact asked.2 taken
    · exact h.not_open once finished (mem_map.mpr ⟨_,entry,rfl⟩)

theorem Sound.outstanding (h : Sound c) (once : (given c.log).Nodup) :
    QueryTable.outstanding c.queries=((reads c.log).filter
      fun id => id∉QueryTable.taken c.log ∧ id∉ended c.log).length := by
  have numbers := h.nodup_numbers once
  have length : QueryTable.outstanding c.queries =
      ((c.queries.entries.filter fun entry => entry.2.asked=.read).map Prod.fst).length := by
    simp [QueryTable.outstanding]
  rw [length]
  refine List.Perm.length_eq ((perm_ext_iff_of_nodup (numbers.sublist (filter_sublist.map _))
    ((once.sublist (reads_sublist _)).filter _)).mpr fun id => ?_)
  simp only [mem_map,mem_filter,decide_eq_true_eq]
  constructor
  · rintro ⟨entry,⟨inside,read⟩,rfl⟩
    obtain ⟨kind,logged,⟨same,untaken⟩ | ⟨memory,-⟩⟩ :=
      h.recorded entry.1 entry.2.outpost entry.2.asked (mem_map.mpr ⟨entry,inside,rfl⟩)
    · rw [read] at same
      subst same
      exact ⟨mem_reads.mpr ⟨_,logged⟩,untaken,fun finished =>
        h.not_open once finished (mem_map.mpr ⟨entry,inside,rfl⟩)⟩
    · rw [read] at memory
      cases memory
  · rintro ⟨read,untaken,unfinished⟩
    obtain ⟨outpost,logged⟩ := mem_reads.mp read
    have settled := h.settled.mem_iff.mp (mem_given.mpr ⟨_,_,logged⟩)
    obtain ⟨entry,inside,rfl⟩ := mem_map.mp ((mem_append.mp settled).resolve_left unfinished)
    obtain ⟨kind,logged',⟨same,-⟩ | ⟨-,taken⟩⟩ :=
      h.recorded entry.1 entry.2.outpost entry.2.asked (mem_map.mpr ⟨entry,inside,rfl⟩)
    · exact ⟨entry,⟨inside,same.trans (asked_unique once logged' logged).2⟩,rfl⟩
    · exact absurd taken untaken

theorem Sound.mem_askedOf (h : Sound c) (once : (given c.log).Nodup)
    (asked : AskedOf c.log id outpost) (untaken : id∉QueryTable.taken c.log)
    (unfinished : id∉ended c.log) : id∈QueryTable.askedOf c.queries outpost := by
  obtain ⟨kind,sent,logged⟩ := asked
  have settled := h.settled.mem_iff.mp (mem_given.mpr ⟨_,_,logged⟩)
  obtain ⟨entry,inside,rfl⟩ := mem_map.mp ((mem_append.mp settled).resolve_left unfinished)
  have member : key entry∈c.queries.entries.map key := mem_map.mpr ⟨entry,inside,rfl⟩
  obtain ⟨kind',logged',⟨same,-⟩ | ⟨-,taken⟩⟩ := h.recorded _ _ _ member
  · obtain ⟨rfl,rfl⟩ := asked_unique once logged' logged
    exact QueryTable.mem_askedOf.mpr ⟨entry.2.asked,same ▸ sent,member⟩
  · exact absurd taken untaken

/-- An outpost's end that has returned leaves none of the outpost's queries open. -/
theorem closed_of_returned {before after : List (Op R)} {outpost : OutpostId} {b c : State R}
    (start : run {} before=b) (later : b.run (.outpostGone outpost::after)=c)
    (few : asksIn before+asksIn (.outpostGone outpost::after) ≤ u64Max+1)
    (returned : c.loops.length≤b.loops.length) :
    ∀ other∈askedOf b.queries outpost,other∉c.queries.numbers := by
  have numbered := numbered_run before
  have earlier := sound_run before (by omega)
  rw [start] at numbered earlier
  have begun : Ending (askedOf b.queries outpost) b.loops.length
      (b.step (.outpostGone outpost)) :=
    .inr ⟨[],outpost,_,b.loops,rfl,rfl,fun _ among _ => among⟩
  have old : ∀ other∈askedOf b.queries outpost,other∈given b.log := by
    intro other among
    obtain ⟨kind,-,logged⟩ := (earlier.askedOf among).1
    exact mem_given.mpr ⟨_,_,logged⟩
  have next := numbered.step (.outpostGone outpost)
  have rest : asksIn (.outpostGone outpost::after) =
      asksIn [(.outpostGone outpost : Op R)]+asksIn after := asksIn_append [_] after
  have ending : Ending (askedOf b.queries outpost) b.loops.length c :=
    later ▸ begun.run old next (by omega)
  rcases ending with done | ⟨above,_,left,below,loops,deep,-⟩
  · exact done
  exfalso
  have long := congrArg length loops
  simp only [length_append,length_cons,deep] at long
  omega

/-- Every run of the table's operations that gives no more numbers than there are: the numbers are
given once; each query is ended once or open; its continuation runs at most once; a stale answer
does nothing; the idle barrier waits for the reads sent and not ended; and an outpost's end returns
after a turn for each of its queries, by then ended every query the outpost was asked that was
open, and ended no other. -/
theorem query_table_sound (ops : List (Op R)) (few : asksIn ops≤u64Max+1) :
    let c := run {} ops
    (given c.log).Nodup ∧
    (∀ id∈given c.log,((ended c.log).count id=1 ∧ id∉c.queries.numbers) ∨
      ((ended c.log).count id=0 ∧ id∈c.queries.numbers)) ∧
    (∀ id,(ran c.log).count id≤1) ∧
    (∀ id outpost,Stale c.log id outpost → c.step (.answered id outpost)=c) ∧
    outstanding c.queries =
      ((reads c.log).filter fun id => id∉taken c.log ∧ id∉ended c.log).length ∧
    (∀ before outpost after,ops=before++.outpostGone outpost::after →
      (∀ op∈after,op.begins=false) →
      (askedOf (run {} before).queries outpost).length<after.countP Op.turns →
      c.loops.length≤(run {} before).loops.length) ∧
    (∀ before outpost after,ops=before++.outpostGone outpost::after →
      c.loops.length≤(run {} before).loops.length →
      ∀ id,AskedOf (run {} before).log id outpost → id∉taken (run {} before).log → id∈ended c.log) ∧
    (∀ id outpost,.ended id (.gone outpost)∈c.log → AskedOf c.log id outpost) := by
  intro c
  have once : (given c.log).Nodup := (numbered_run ops).nodup few
  have sound : Sound c := sound_run ops few
  have both := sound.settled.nodup_iff.mp once
  have ended_once := (nodup_append'.mp both).1
  refine ⟨once,?_,?_,fun id outpost => sound.answered_stale once,sound.outstanding once,?_,?_,
    sound.gone⟩
  · intro id inside
    rcases mem_append.mp (sound.settled.mem_iff.mp inside) with finished | opened
    · exact .inl ⟨count_eq_one_of_mem ended_once finished,sound.not_open once finished⟩
    · exact .inr ⟨count_eq_zero.mpr fun finished => sound.not_open once finished opened,opened⟩
  · intro id
    exact (sound.ran.count_le id).trans (nodup_iff_count_le_one.mp ended_once id)
  · intro before outpost after split begins enough
    have later : c=((run {} before).step (.outpostGone outpost)).run after := by
      show run {} ops=_
      rw [split,run_append]
      rfl
    rw [later]
    exact run_returns rfl begins enough
  · intro before outpost after split returned id asked untaken
    have parts : asksIn ops=asksIn before+asksIn (.outpostGone outpost::after) := by
      rw [split,asksIn_append]
    have later : (run {} before).run (.outpostGone outpost::after)=c := by
      rw [← run_append,← split]
    have closed := closed_of_returned rfl later (parts ▸ few) returned
    have fewer : asksIn before≤u64Max+1 := by omega
    have log : (run {} before).log <+: c.log := later ▸ run_log _ _
    by_cases finished : id∈ended (run {} before).log
    · exact (log.filterMap _).subset finished
    obtain ⟨kind,sent,logged⟩ := asked
    have number : id∈given c.log := mem_given.mpr ⟨_,_,log.subset logged⟩
    have among := (sound_run before fewer).mem_askedOf ((numbered_run before).nodup fewer)
      ⟨kind,sent,logged⟩ untaken finished
    exact (mem_append.mp (sound.settled.mem_iff.mp number)).resolve_right (closed id among)

/-- A read and a watch of outpost 1, a read of outpost 2, the second outpost's answer, and the end
of the first to its return. -/
def sampleOps : List (Op Nat) :=
  [.ask (.navigate ⟨1,0⟩) (.rule 10),.ask (.text ⟨1,0⟩ true) (.rule 11),
    .ask (.activate ⟨2,0⟩) (.rule 12),.answered 0 2,.outpostGone 1,.nextGone,.nextGone,.nextGone]

theorem sampleOps_sound :
    0∈ended (run {} sampleOps).log ∧ outstanding (run {} sampleOps).queries=1 := by
  obtain ⟨-,-,-,-,waits,returns,gone,-⟩ := query_table_sound sampleOps (by decide +kernel)
  refine ⟨?_,?_⟩
  · have returned := returns (sampleOps.take 4) 1 (sampleOps.drop 5) rfl
      (by simp [sampleOps,Op.begins]) (by decide +kernel)
    exact gone (sampleOps.take 4) 1 (sampleOps.drop 5) rfl returned 0
      ⟨.read,by decide,by decide +kernel⟩ (by decide +kernel)
  · decide +kernel

/-- The last number is given again: the counter stays there. -/
theorem last_number_reused :
    ¬ (given (run {} (replicate (u64Max+2) (.askMemory ⟨0,0⟩ .nothing : Op Nat))).log).Nodup := by
  intro once
  have many : asksIn (replicate (u64Max+2) (.askMemory ⟨0,0⟩ .nothing : Op Nat)) = u64Max+2 := by
    rw [asksIn,filter_replicate_of_pos rfl,length_replicate]
  have numbered := numbered_run (replicate (u64Max+2) (.askMemory ⟨0,0⟩ .nothing : Op Nat))
  rw [many] at numbered
  rw [numbered.given] at once
  have same := inj_on_of_nodup_map once (mem_range.mpr (Nat.lt_succ_self (u64Max+1)))
    (mem_range.mpr (by omega : u64Max<u64Max+2))
    (show min (u64Max+1) u64Max=min u64Max u64Max by omega)
  omega

end Verbatim.Core.QueryTable
