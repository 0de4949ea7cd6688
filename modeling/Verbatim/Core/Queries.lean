import Verbatim.Framework.Machine
import Mathlib.Data.List.Nodup

namespace Verbatim.Core

open Framework List

/-- The parts of Core the held keys never look into: what its other rules keep, ask, answer and
say, as types. -/
structure Parts where
  State : Type
  Key : Type
  Typed : Type
  Command : Type
  Input : Type
  Watch : Type
  Pending : Type
  Segment : Type
  Ask : Type
  Continuation : Type
  Review : Type
  Op : Type
  Caret : Type
  Snapshot : Type
  Reply : Type
  Outcome : Type
  Effect : Type

abbrev TraceId := Nat

abbrev QueryId := Nat

abbrev OutpostId := Nat

structure NodeId where
  outpost : OutpostId
  number : Nat
  deriving DecidableEq

inductive Asked where
  | read
  | watch
  | memory
  deriving DecidableEq

variable {P : Parts}

structure HeldKey (P : Parts) where
  trace : TraceId
  key : P.Key
  pressedAtMs : Nat

/-- A held key whose caret is being read before it is passed on. -/
structure HeldRead (P : Parts) where
  node : NodeId
  key : HeldKey P

structure PendingCaret (P : Parts) where
  node : NodeId
  laterKeyAtMs : Option Nat
  heard : List P.Segment
  pending : P.Pending

/-- What the answer to a query continues, the read before a held key apart. -/
inductive Later (P : Parts) where
  | caret (pending : PendingCaret P)
  | supersededCaret (node : NodeId)
  | terminalModel (ask : P.Ask)
  | other (continuation : P.Continuation)
  | nothing

inductive Then (P : Parts) where
  | heldRead (reading : HeldRead P)
  | later (continuation : Later P)

/-- A continuation `which` picks: a query turned to nothing never is one. -/
def Then.picked (which : Later P → Bool) : Then P → Bool
  | .later .nothing | .heldRead _ => false
  | .later continuation => which continuation

def Then.map (f : Later P → Later P) : Then P → Then P
  | .later continuation => .later (f continuation)
  | .heldRead reading => .heldRead reading

def Later.isCaret : Later P → Bool
  | .caret _ => true
  | _ => false

def Later.isSuperseded : Later P → Bool
  | .supersededCaret _ => true
  | _ => false

/-- What a query asks of its node. A terminal's memory answers only what `review` asks. -/
inductive Op (P : Parts) where
  | awaitCaret (watch : P.Watch)
  | readCaret
  | review (op : P.Review)
  | other (op : P.Op)

def Op.asked : Op P → Asked
  | .awaitCaret _ => .watch
  | _ => .read

variable {T : Type*}

structure Open (T : Type*) where
  outpost : OutpostId
  trace : Option TraceId
  asked : Asked
  continues : T
  deriving DecidableEq

/-- The queries open, by their numbers, with what the answer to each continues. -/
structure Queries (T : Type*) where
  next : QueryId := 0
  entries : List (QueryId × Open T) := []
  deriving DecidableEq

namespace Queries

variable (q : Queries T)

def numbers : List QueryId := q.entries.map Prod.fst

/-- Records a query under the next number, in place of one that has it. -/
def record (query : Open T) : Queries T :=
  ⟨satAdd q.next 1,q.entries.filter (fun entry => entry.1≠q.next)++[(q.next,query)]⟩

def ask (node : NodeId) (asked : Asked) (continues : T) : Queries T :=
  q.record ⟨node.outpost,none,asked,continues⟩

variable (id : QueryId)

def lookup : Option (Open T) := (q.entries.find? fun entry => entry.1=id).map Prod.snd

def alter (f : Open T → Open T) : Queries T :=
  {q with entries := q.entries.map (fun entry =>
      if entry.1=id then (entry.1,f entry.2) else entry)}

/-- Core takes the query's request out of the effects, to answer it from a terminal's memory. -/
def answerFromMemoryLater (trace : Option TraceId) : Queries T :=
  q.alter id fun query => {query with asked := .memory, trace := trace}

def replace (continues : T) : Queries T :=
  q.alter id fun query => {query with continues := continues}

def remove : Queries T := {q with entries := q.entries.filter (fun entry => entry.1≠id)}

def forgetMemory (ids : List QueryId) : Queries T :=
  {q with entries := q.entries.filter (fun entry => ¬ (entry.1∈ids ∧ entry.2.asked=.memory))}

variable (which : T → Bool)

def find : Option (QueryId × T) :=
  (q.entries.find? fun entry => which entry.2.continues).map fun entry =>
    (entry.1,entry.2.continues)

def findMut (f : T → T) : Queries T :=
  match q.find which with
  | some (id,continues) => q.replace id (f continues)
  | none => q

/-- A query picked is turned to nothing, and one only Core answers removed. -/
def forgetOne (nothing : T) (entry : QueryId × Open T) : Option (QueryId × Open T) :=
  if which entry.2.continues then
    if entry.2.asked=.memory then none else some (entry.1,{entry.2 with continues := nothing})
  else some entry

def forget (nothing : T) : Queries T :=
  {q with entries := q.entries.filterMap (forgetOne which nothing)}

section Lemmas

variable {q id which} {query : Open T}

theorem lookup_mem (h : q.lookup id=some query) : (id,query)∈q.entries := by
  obtain ⟨entry,hfind,rfl⟩ := Option.map_eq_some_iff.mp h
  have hid := find?_some hfind
  simp only [decide_eq_true_eq] at hid
  rw [← hid]
  exact mem_of_find?_eq_some hfind

theorem find_mem {continues : T} (h : q.find which=some (id,continues)) :
    ∃ query, (id,query)∈q.entries ∧ query.continues=continues ∧ which continues := by
  obtain ⟨entry,hfind,heq⟩ := Option.map_eq_some_iff.mp h
  cases heq
  exact ⟨entry.2,mem_of_find?_eq_some hfind,rfl,by simpa using find?_some hfind⟩

theorem numbers_alter (f : Open T → Open T) : (q.alter id f).numbers=q.numbers := by
  simp only [numbers,alter,map_map]
  refine map_congr_left fun entry _ => ?_
  by_cases heq : entry.1=id <;> simp [heq]

theorem record_fresh (hfresh : q.next∉q.numbers) :
    q.record query=⟨satAdd q.next 1,q.entries++[(q.next,query)]⟩ := by
  rw [record,filter_eq_self.mpr]
  exact fun entry hmem => decide_eq_true fun heq => hfresh (mem_map.mpr ⟨entry,hmem,heq⟩)

theorem filterMap_sublist_map {α β : Type*} {f : α → Option α} {g : α → β}
    (h : ∀ a b, f a=some b → g b=g a) (as : List α) :
    ((as.filterMap f).map g).Sublist (as.map g) := by
  induction as with
  | nil => exact .slnil
  | cons a as ih =>
    cases hone : f a with
    | none => simpa [hone] using ih.cons (g a)
    | some b => simpa [hone,h a b hone] using ih.cons_cons (g a)

theorem forgetOne_eq {nothing : T} {entry kept : QueryId × Open T}
    (h : forgetOne which nothing entry=some kept) :
    kept=entry ∨ kept=(entry.1,{entry.2 with continues := nothing}) := by
  unfold forgetOne at h
  split at h
  · split at h
    · cases h
    · exact .inr (Option.some.inj h).symm
  · exact .inl (Option.some.inj h).symm

theorem numbers_forget (q : Queries T) (which : T → Bool) (nothing : T) :
    (q.forget which nothing).numbers.Sublist q.numbers := by
  refine filterMap_sublist_map ?_ q.entries
  intro entry kept hone
  obtain rfl | rfl := forgetOne_eq hone <;> rfl

theorem next_findMut (f : T → T) : (q.findMut which f).next=q.next := by
  unfold findMut
  split <;> rfl

end Lemmas

def heldReads (q : Queries (Then P)) : List (QueryId × HeldRead P) :=
  q.entries.filterMap (fun (id,query) => match query.continues with
    | .heldRead reading => some (id,reading)
    | .later _ => none)

end Queries

end Verbatim.Core
