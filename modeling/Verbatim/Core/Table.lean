import Verbatim.Core.Queries

namespace Verbatim.Core.Queries

open List Framework

variable {P : Parts} {q : Queries (Then P)} {id : QueryId} {query : Open (Then P)}

/-- The table is well formed: its numbers are given once, and at most one read before a held key is
open, which an outpost answers. -/
structure Good (q : Queries (Then P)) : Prop where
  below : ∀ id∈q.numbers, id<q.next
  nodup : q.numbers.Nodup
  single : q.heldReads.length≤1
  sent : ∀ entry∈q.entries, ∀ reading, entry.2.continues=.heldRead reading → entry.2.asked≠.memory

theorem good_empty : Good ({} : Queries (Then P)) :=
  ⟨by simp [numbers],by simp [numbers],by simp [heldReads],by simp⟩

def Plain (q : Queries (Then P)) (id : QueryId) : Prop := ∀ reading, (id,reading)∉q.heldReads

theorem mem_heldReads {reading : HeldRead P} :
    (id,reading)∈q.heldReads ↔ ∃ query, (id,query)∈q.entries ∧
      query.continues=.heldRead reading := by
  simp only [heldReads,mem_filterMap,Prod.exists]
  constructor
  · rintro ⟨id',query,hmem,heq⟩
    split at heq
    next reading' hcont =>
      cases heq
      exact ⟨query,hmem,hcont⟩
    · cases heq
  · rintro ⟨query,hmem,hcont⟩
    exact ⟨id,query,hmem,by rw [hcont]⟩

theorem mem_numbers (hmem : (id,query)∈q.entries) : id∈q.numbers := mem_map_of_mem hmem

theorem Good.plain_next (h : q.Good) (hle : q.next ≤ id) : q.Plain id := by
  intro reading hmem
  obtain ⟨query,hquery,-⟩ := mem_heldReads.mp hmem
  exact absurd (h.below _ (mem_numbers hquery)) (Nat.not_lt.mpr hle)

theorem Good.eq_of_mem (h : q.Good) {query other : Open (Then P)} (hmem : (id,query)∈q.entries)
    (hother : (id,other)∈q.entries) : query=other :=
  congrArg Prod.snd (inj_on_of_nodup_map h.nodup hmem hother rfl)

theorem Good.plain_of_later (h : q.Good) {later : Later P}
    (hmem : (id,query)∈q.entries) (hlater : query.continues=.later later) : q.Plain id := by
  intro reading hreading
  obtain ⟨other,hother,hcont⟩ := mem_heldReads.mp hreading
  rw [h.eq_of_mem hmem hother,hcont] at hlater
  cases hlater

theorem Good.lookup_of_mem (h : q.Good) (hmem : (id,query)∈q.entries) : q.lookup id=some query := by
  have hsome : (q.entries.find? fun entry => entry.1=id).isSome := by
    rw [find?_isSome]
    exact ⟨_,hmem,by simp⟩
  obtain ⟨entry,hentry⟩ := Option.isSome_iff_exists.mp hsome
  have hlookup : q.lookup id=some entry.2 := by rw [lookup,hentry]; rfl
  rw [hlookup,h.eq_of_mem hmem (lookup_mem hlookup)]

theorem next_lt_ask {node : NodeId} {asked : Asked} {continues : Then P}
    (hfew : (q.ask node asked continues).next<u64Max) :
    q.next<(q.ask node asked continues).next := by
  have hnext : satAdd q.next 1<u64Max := hfew
  refine lt_satAdd q.next 1 ?_ Nat.one_pos
  unfold satAdd at hnext
  omega

theorem Good.record_eq (h : q.Good) (hfew : (q.record query).next<u64Max) :
    q.record query=⟨q.next+1,q.entries++[(q.next,query)]⟩ := by
  rw [record_fresh fun hmem => absurd (h.below _ hmem) (Nat.lt_irrefl _)]
  have hnext : satAdd q.next 1<u64Max := hfew
  unfold satAdd at hnext ⊢
  rw [Nat.min_eq_left (by omega)]

section Reads

theorem heldReads_forget (q : Queries (Then P)) (which : Later P → Bool) :
    (q.forget (Then.picked which) (.later .nothing)).heldReads=q.heldReads := by
  simp only [heldReads,forget,filterMap_filterMap]
  refine filterMap_congr fun entry _ => ?_
  cases hcont : entry.2.continues with
  | heldRead reading => simp [forgetOne,Then.picked,hcont]
  | later continuation =>
    simp only [forgetOne,hcont]
    split
    · split <;> simp
    · simp [hcont]

variable {f : Open (Then P) → Open (Then P)}

theorem heldReads_alter_same (hf : ∀ query, (f query).continues=query.continues) :
    (q.alter id f).heldReads=q.heldReads := by
  simp only [heldReads,alter,filterMap_map]
  refine filterMap_congr fun entry _ => ?_
  by_cases heq : entry.1=id
  · simp only [Function.comp_apply,if_pos heq,hf]
  · simp only [Function.comp_apply,if_neg heq]

theorem heldReads_replace (h : q.Plain id) (later : Later P) :
    (q.replace id (.later later)).heldReads=q.heldReads := by
  simp only [heldReads,replace,alter,filterMap_map]
  refine filterMap_congr fun entry hmem => ?_
  by_cases heq : entry.1=id
  · simp only [Function.comp_apply,if_pos heq]
    cases hcont : entry.2.continues with
    | heldRead reading =>
      exact absurd (mem_heldReads.mpr ⟨entry.2,heq ▸ hmem,hcont⟩) (h reading)
    | later continuation => rfl
  · simp only [Function.comp_apply,if_neg heq]

theorem heldReads_forgetMemory (h : q.Good) (ids : List QueryId) :
    (q.forgetMemory ids).heldReads=q.heldReads := by
  simp only [heldReads,forgetMemory,filterMap_filter]
  refine filterMap_congr fun entry hmem => ?_
  cases hcont : entry.2.continues with
  | heldRead reading =>
    have := h.sent entry hmem reading hcont
    simp [this]
  | later continuation =>
    simp only [ite_self]

theorem heldReads_remove (q : Queries (Then P)) (id : QueryId) : (q.remove id).heldReads =
    q.heldReads.filter fun entry => entry.1≠id := by
  simp only [heldReads,remove,filterMap_filter,filter_filterMap]
  refine filterMap_congr fun entry _ => ?_
  cases hcont : entry.2.continues with
  | heldRead reading =>
    by_cases heq : entry.1=id
    · simp [heq,Option.filter]
    · simp [heq,Option.filter]
  | later continuation => simp [Option.filter]

theorem heldReads_remove_plain (hplain : q.Plain id) : (q.remove id).heldReads=q.heldReads := by
  rw [heldReads_remove,filter_eq_self]
  rintro ⟨id',reading⟩ hmem
  exact decide_eq_true fun heq : id'=id => hplain reading (heq ▸ hmem)

variable (node : NodeId) (asked : Asked)

theorem reads_ask_later (later : Later P) :
    (q.ask node asked (.later later)).heldReads=(q.remove q.next).heldReads := by
  simp [heldReads,ask,record,remove]

theorem Good.reads_ask (h : q.Good) (node : NodeId) (asked : Asked) (later : Later P) :
    (q.ask node asked (.later later)).heldReads=q.heldReads :=
  (reads_ask_later node asked later).trans (heldReads_remove_plain (h.plain_next (Nat.le_refl _)))

theorem reads_ask_heldRead (reading : HeldRead P) :
    (q.ask node asked (.heldRead reading)).heldReads =
      (q.remove q.next).heldReads++[(q.next,reading)] := by
  simp [heldReads,ask,record,remove]

end Reads

theorem mem_alter {entry : QueryId × Open (Then P)}
    (h : entry∈(q.alter id f).entries) : ∃ other∈q.entries, entry.1=other.1 ∧
      (entry.2=other.2 ∨ other.1=id ∧ entry.2=f other.2) := by
  obtain ⟨other,hother,rfl⟩ := mem_map.mp h
  refine ⟨other,hother,?_⟩
  by_cases heq : other.1=id
  · rw [if_pos heq]
    exact ⟨rfl,.inr ⟨heq,rfl⟩⟩
  · rw [if_neg heq]
    exact ⟨rfl,.inl rfl⟩

variable (h : q.Good)

include h

theorem Good.of_reads {q' : Queries (Then P)} (hnext : q'.next=q.next)
    (hnumbers : q'.numbers.Sublist q.numbers) (hreads : q'.heldReads=q.heldReads)
    (hsent : ∀ id query reading, (id,query)∈q'.entries → query.continues=.heldRead reading →
      ∃ other, (id,other)∈q.entries ∧ other.continues=.heldRead reading ∧
        other.asked=query.asked) : q'.Good := by
  refine ⟨fun id hmem => hnext ▸ h.below id (hnumbers.subset hmem),h.nodup.sublist hnumbers,
    hreads ▸ h.single,?_⟩
  rintro ⟨id,query⟩ hmem reading hcont
  obtain ⟨other,hother,hcont',hasked⟩ := hsent id query reading hmem hcont
  exact hasked ▸ h.sent _ hother reading hcont'

theorem Good.ask {node : NodeId} {asked : Asked} {continues : Then P}
    (hfew : (q.ask node asked continues).next<u64Max)
    (hreads : (q.ask node asked continues).heldReads.length≤1)
    (hsent : ∀ reading, continues=.heldRead reading → asked≠.memory) :
    (q.ask node asked continues).Good := by
  refine ⟨?_,?_,hreads,?_⟩ <;> rw [Queries.ask,h.record_eq hfew]
  · simp only [numbers,map_append,forall_mem_append]
    exact ⟨fun id hid => Nat.lt_succ_of_lt (h.below id hid),by simp⟩
  · simp only [numbers,map_append,map_cons,map_nil]
    exact nodup_append'.mpr ⟨h.nodup,nodup_singleton _,
      disjoint_singleton.mpr fun hid => absurd (h.below _ hid) (Nat.lt_irrefl _)⟩
  · simp only [forall_mem_append]
    exact ⟨h.sent,by simpa using hsent⟩

theorem Good.alter (hreads : (q.alter id f).heldReads=q.heldReads)
    (hsent : ∀ query reading, (f query).continues=.heldRead reading →
      query.continues=.heldRead reading ∧ ((f query).asked=query.asked ∨ q.Plain id)) :
    (q.alter id f).Good := by
  refine h.of_reads rfl (by rw [numbers_alter]) hreads ?_
  intro id' query reading hmem hcont
  obtain ⟨other,hother,heq,hquery⟩ := mem_alter hmem
  obtain ⟨otherId,other⟩ := other
  simp only at heq hquery
  subst heq
  obtain rfl | ⟨rfl,rfl⟩ := hquery
  · exact ⟨query,hother,hcont,rfl⟩
  obtain ⟨hcont',hasked | hplain⟩ := hsent other reading hcont
  · exact ⟨other,hother,hcont',hasked.symm⟩
  · exact absurd (mem_heldReads.mpr ⟨other,hother,hcont'⟩) (hplain reading)

theorem Good.replace (hplain : q.Plain id) (later : Later P) :
    (q.replace id (.later later)).Good :=
  h.alter (heldReads_replace hplain later) fun _ _ hcont => by cases hcont

theorem Good.answerFromMemoryLater (hplain : q.Plain id) (trace : Option TraceId) :
    (q.answerFromMemoryLater id trace).Good :=
  h.alter (heldReads_alter_same fun _ => rfl) fun _ _ hcont => ⟨hcont,.inr hplain⟩

theorem Good.filter {p : QueryId × Open (Then P) → Bool}
    (hsingle : (heldReads ⟨q.next,q.entries.filter p⟩).length≤q.heldReads.length) :
    Good ⟨q.next,q.entries.filter p⟩ :=
  ⟨fun id hmem => h.below id ((filter_sublist.map _).subset hmem),
    h.nodup.sublist (filter_sublist.map _),Nat.le_trans hsingle h.single,
    fun entry hmem => h.sent entry (mem_filter.mp hmem).1⟩

theorem Good.remove (id : QueryId) : (q.remove id).Good := by
  refine h.filter ?_
  have hlength := congrArg List.length (heldReads_remove q id)
  exact Nat.le_trans (Nat.le_of_eq hlength) (length_filter_le _ _)

theorem Good.forgetMemory (ids : List QueryId) : (q.forgetMemory ids).Good :=
  h.filter (Nat.le_of_eq (congrArg List.length (heldReads_forgetMemory h ids)))

theorem Good.forget (which : Later P → Bool) :
    (q.forget (Then.picked which) (.later .nothing)).Good := by
  refine h.of_reads rfl (numbers_forget q _ _) (heldReads_forget q which) ?_
  intro id query reading hmem hcont
  obtain ⟨⟨id',other⟩,hentry,heq⟩ := mem_filterMap.mp hmem
  cases forgetOne_eq heq with
  | inl hsame =>
    cases hsame
    exact ⟨query,hentry,hcont,rfl⟩
  | inr hnothing =>
    cases hnothing
    cases hcont

theorem findMut_spec (which : Later P → Bool) (f : Later P → Later P) :
    (q.findMut (Then.picked which) (Then.map f)).Good ∧
      (q.findMut (Then.picked which) (Then.map f)).heldReads=q.heldReads := by
  unfold findMut
  split
  next id continues hfind =>
    obtain ⟨query,hmem,rfl,hpicked⟩ := find_mem hfind
    cases hcont : query.continues with
    | heldRead reading => simp [hcont,Then.picked] at hpicked
    | later later =>
      have hplain := h.plain_of_later hmem hcont
      exact ⟨h.replace hplain _,heldReads_replace hplain _⟩
  · exact ⟨h,rfl⟩

end Verbatim.Core.Queries
