import Verbatim.Outbound.Positions

namespace Verbatim.Outbound

open List Store Nat

variable {D : Type}

namespace Store

variable (store : Store)

theorem keeps_iff (carried : Carried) :
    store.keeps carried=true ↔ carried∈store.kept.map Prod.fst := by
  simp [keeps]

variable (tag : Tag) (kept : List (Carried × List Tag))

theorem tagCarried_keys (carried : Carried) :
    (tagCarried tag kept carried).map Prod.fst =
      if carried∈kept.map Prod.fst then kept.map Prod.fst
      else kept.map Prod.fst++[carried] := by
  have same : kept.any (fun entry => entry.1=carried)=true ↔ carried∈kept.map Prod.fst := by
    simp
  unfold tagCarried
  by_cases here : carried∈kept.map Prod.fst
  · rw [if_pos (same.mpr here),if_pos here,map_map]
    refine map_congr_left fun entry _ => ?_
    by_cases own : entry.1=carried <;> simp [own]
  · rw [if_neg fun h => here (same.mp h),if_neg here]
    simp

theorem tagCarried_nodup (carried : Carried)
    (h : (kept.map Prod.fst).Nodup) : ((tagCarried tag kept carried).map Prod.fst).Nodup := by
  rw [tagCarried_keys]
  split
  · exact h
  rename_i new
  exact nodup_append.mpr ⟨h,by simp,fun a inside b last same =>
    new (by rw [← mem_singleton.mp last,← same]; exact inside)⟩

theorem mem_tagCarried_keys (carried other : Carried) :
    other∈(tagCarried tag kept carried).map Prod.fst ↔ other∈kept.map Prod.fst ∨ other=carried := by
  rw [tagCarried_keys]
  split
  · rename_i here
    exact ⟨Or.inl,fun h => h.elim id fun same => same ▸ here⟩
  · rw [mem_append,mem_singleton]

theorem foldl_tagCarried (added : List Carried) (kept : List (Carried × List Tag))
    (h : (kept.map Prod.fst).Nodup) :
    ((added.foldl (tagCarried tag) kept).map Prod.fst).Nodup ∧
      ∀ other,other∈(added.foldl (tagCarried tag) kept).map Prod.fst ↔
        other∈kept.map Prod.fst ∨ other∈added := by
  induction added generalizing kept with
  | nil => exact ⟨h,fun other => by simp⟩
  | cons first added ih =>
    obtain ⟨unique,members⟩ := ih (tagCarried tag kept first) (tagCarried_nodup tag kept first h)
    refine ⟨unique,fun other => ?_⟩
    rw [foldl_cons,members,mem_tagCarried_keys,mem_cons,or_assoc]

theorem remove_keys (gone : List Carried) :
    List.Sublist ((store.remove gone).kept.map Prod.fst) (store.kept.map Prod.fst) :=
  filter_sublist.map Prod.fst

theorem retainTags_keys (live : List Tag) :
    (store.retainTags live).kept.map Prod.fst=store.kept.map Prod.fst := by
  simp [retainTags]

variable (reported : Carried → Option Report)

theorem release_keys (list : HeldList) (live : List Tag) :
    List.Sublist ((store.release reported list live).kept.map Prod.fst)
      (store.kept.map Prod.fst) := by
  rw [← retainTags_keys store live]
  exact remove_keys _ _

theorem release_keeps_node (list : HeldList) (live : List Tag) (node : Nat) :
    (store.release reported list live).keeps (.node node)=true ↔
      store.keeps (.node node)=true ∧ .node node∉store.freed reported list live := by
  simp only [keeps_iff,release,remove,mem_map,mem_filter,decide_eq_true_eq]
  constructor
  · rintro ⟨entry,⟨inside,out,-⟩,own⟩
    obtain ⟨old,there,rfl⟩ := mem_map.mp inside
    exact ⟨⟨old,there,own⟩,own ▸ out⟩
  · rintro ⟨⟨entry,inside,own⟩,out⟩
    refine ⟨(entry.1,entry.2.filter (·∈live)),⟨mem_map.mpr ⟨entry,inside,rfl⟩,?_,?_⟩,own⟩
    · rwa [← own] at out
    · rw [own]
      rfl

def tagsOf (store : Store) (carried : Carried) : List Tag :=
  (store.kept.filter fun entry => entry.1=carried).flatMap Prod.snd

theorem mem_freed {store : Store} (keys : (store.kept.map Prod.fst).Nodup)
    (reported : Carried → Option Report) (list : HeldList) (live : List Tag) (carried : Carried) :
    carried∈store.freed reported list live ↔
      store.keeps carried=true ∧ (∀ tag∈store.tagsOf carried,tag∉live) ∧
        ∀ report,reported carried=some report →
          report.waiting=0 ∧ report.position≤list.acknowledged ∧ carried∉list.held := by
  have free : ∀ entry∈store.kept,entry.1=carried →
      (isFree reported list live entry=true ↔ (∀ tag∈store.tagsOf carried,tag∉live) ∧
        ∀ report,reported carried=some report →
          report.waiting=0 ∧ report.position≤list.acknowledged ∧ carried∉list.held) := by
    intro entry inside own
    subst own
    have tags : ∀ tag,tag∈store.tagsOf entry.1 ↔ tag∈entry.2 := by
      intro tag
      simp only [tagsOf,mem_flatMap,mem_filter,decide_eq_true_eq]
      constructor
      · rintro ⟨other,⟨there,same⟩,tagged⟩
        rwa [← inj_on_of_nodup_map keys there inside same]
      · exact fun tagged => ⟨entry,⟨inside,rfl⟩,tagged⟩
    simp only [isFree,Bool.and_eq_true,List.isEmpty_iff,filter_eq_nil_iff,decide_eq_true_eq,tags]
    cases reported entry.1 with
    | none => simp
    | some report => simp [and_assoc]
  simp only [freed,mem_map,mem_filter,keeps_iff]
  constructor
  · rintro ⟨entry,⟨inside,isFree⟩,own⟩
    exact ⟨⟨entry,inside,own⟩,(free entry inside own).mp isFree⟩
  · rintro ⟨⟨entry,inside,own⟩,rest⟩
    exact ⟨entry,⟨inside,(free entry inside own).mpr rest⟩,own⟩

end Store

section Records

/-- What was sent is on record unless the queue forgot it; it never forgets a node that is kept. -/
structure Known (w : World D) : Prop where
  keys : (w.store.kept.map Prod.fst).Nodup
  kept : ∀ n,w.store.keeps (.node n)=true → n<w.store.nodes
  issued : ∀ n,.node n∈w.sent → n<w.store.nodes
  forgotten : ∀ carried∈w.forgotten,carried∈w.sent
  gone : ∀ n,.node n∈w.forgotten → w.store.keeps (.node n)=false
  lost : ∀ carried∈w.lost,carried∈w.forgotten
  recorded : ∀ carried,w.pending.reported carried≠none → carried∈w.sent
  known : ∀ carried∈w.sent,carried∉w.forgotten → w.pending.reported carried≠none

variable {w : World D}

theorem Known.restore (h : Known w) (store : Store) (keys : (store.kept.map Prod.fst).Nodup)
    (more : w.store.nodes ≤ store.nodes)
    (kept : ∀ n,store.keeps (.node n)=true → w.store.keeps (.node n)=true ∨
      n=w.store.nodes ∧ n<store.nodes)
    :
    Known {w with store := store} := by
  refine ⟨keys,?_,?_,h.forgotten,?_,h.lost,h.recorded,h.known⟩
  · intro n keeps
    rcases kept n keeps with old | new
    · exact lt_of_lt_of_le (h.kept n old) more
    · exact new.2
  · exact fun n sent => lt_of_lt_of_le (h.issued n sent) more
  · intro n forgotten
    rw [Bool.eq_false_iff]
    intro keeps
    rcases kept n keeps with old | new
    · exact Bool.false_ne_true ((h.gone n forgotten).symm.trans old)
    · have before := h.issued n (h.forgotten _ forgotten)
      omega

theorem Known.shrink (h : Known w) (store : Store)
    (keys : List.Sublist (store.kept.map Prod.fst) (w.store.kept.map Prod.fst))
    (same : store.nodes=w.store.nodes) : Known {w with store := store} := by
  refine h.restore store (h.keys.sublist keys) (le_of_eq same.symm) fun n keeps => .inl ?_
  rw [keeps_iff] at keeps ⊢
  exact keys.subset keeps

theorem Known.report {w : World D} (h : Known w) {w' : World D} (named : List Carried)
    (store : w'.store=w.store) (sent : w'.sent=w.sent++named)
    (forgotten : w'.forgotten=w.forgotten) (lost : w'.lost=w.lost)
    (issued : ∀ n,.node n∈named → n<w.store.nodes)
    (reported : ∀ carried,w'.pending.reported carried=none ↔
      w.pending.reported carried=none ∧ carried∉named) : Known w' := by
  refine ⟨store ▸ h.keys,store ▸ h.kept,?_,?_,?_,?_,?_,?_⟩
  · intro n inside
    rw [sent,mem_append] at inside
    rw [store]
    exact inside.elim (h.issued n) (issued n)
  · intro carried inside
    rw [sent]
    exact mem_append_left _ (h.forgotten carried (forgotten ▸ inside))
  · rw [store,forgotten]
    exact h.gone
  · rw [lost,forgotten]
    exact h.lost
  · intro carried recorded
    rw [sent,mem_append]
    by_cases new : carried∈named
    · exact .inr new
    · exact .inl (h.recorded carried fun none => recorded ((reported carried).mpr ⟨none,new⟩))
  · intro carried inside remembered none
    rw [sent,mem_append] at inside
    rw [forgotten] at remembered
    obtain ⟨was,old⟩ := (reported carried).mp none
    exact inside.elim (fun before => h.known carried before remembered was) old

theorem Known.writeItem (h : Known w) (encoded : Bool)
    {item : Outgoing (Urgent D) (OutpostToCore D)} {after : Pending (Urgent D) (OutpostToCore D)}
    (popped : w.pending.pop=some (item,after)) : Known (w.writeItem after encoded item) := by
  have same := (pop_position popped).2
  have plain : ∀ carried,after.reported carried=none ↔
      w.pending.reported carried=none ∧ carried∉([] : List Carried) := by simp [same]
  have numbered : ∀ (m : OutpostToCore D) touched carried,
      (after.number m.carriesNodes touched).reported carried=none ↔
        w.pending.reported carried=none ∧ carried∉([] : List Carried) := by
    intro m touched carried
    simp only [Pending.number,foldl_countWritten,same]
    split <;> simp
  cases item with
  | urgent message =>
    exact h.report [] rfl (by simp [World.writeItem]) rfl rfl (by simp) plain
  | ordinary entry =>
    cases entry with
    | flushed done => exact h.report [] rfl (by simp [World.writeItem]) rfl rfl (by simp) plain
    | message m touched =>
      cases encoded <;>
        exact h.report [] rfl (by simp [World.writeItem]) rfl rfl (by simp) (numbered m touched)

theorem Known.releaseFor (h : Known w) (list : HeldList) (live : List Tag) :
    Known (w.releaseFor list live) := by
  have shrunk := h.shrink (w.store.release w.pending.reported list live) (release_keys _ _ _ _) rfl
  simp only [World.releaseFor]
  split
  · exact shrunk
  refine ⟨shrunk.keys,shrunk.kept,shrunk.issued,?_,?_,?_,?_,?_⟩
  · intro carried inside
    rcases mem_append.mp inside with old | new
    · exact h.forgotten carried old
    · exact (mem_filter.mp new).1
  · intro n inside
    rcases mem_append.mp inside with old | new
    · exact shrunk.gone n old
    · simpa using (mem_filter.mp new).2
  · intro carried inside
    rcases mem_append.mp inside with old | new
    · exact mem_append_left _ (h.lost carried old)
    · exact mem_append_right _ (mem_filter.mp new).1
  · intro carried recorded
    refine h.recorded carried fun none => recorded ?_
    simp [Pending.forget,none]
  · intro carried sent remembered
    rw [mem_append,not_or] at remembered
    have keeps : (w.store.release w.pending.reported list live).keeps carried=true := by
      by_contra gone
      exact remembered.2 (mem_filter.mpr ⟨sent,by simpa using gone⟩)
    simp only [Pending.forget,keeps]
    simpa using h.known carried sent remembered.1

theorem Known.step {w : World D} (h : Known w) (op : WorldOp D) : Known (w.step op) := by
  have unchanged : ∀ carried,w.pending.reported carried=none ↔
      w.pending.reported carried=none ∧ carried∉([] : List Carried) := by simp
  cases op with
  | issueNode tag =>
    refine h.restore _ (tagCarried_nodup _ _ _ h.keys) (le_succ _) fun n keeps => ?_
    rw [keeps_iff] at keeps ⊢
    rcases (mem_tagCarried_keys _ _ _ _).mp keeps with old | new
    · exact .inl old
    · cases new
      exact .inr ⟨rfl,lt_succ_self _⟩
  | tagNode node tag =>
    simp only [World.step,tagNode]
    split
    · rename_i here
      refine h.restore _ (tagCarried_nodup _ _ _ h.keys) (le_refl _) fun n keeps => .inl ?_
      rw [keeps_iff] at keeps here ⊢
      rcases (mem_tagCarried_keys _ _ _ _).mp keeps with old | new
      · exact old
      · rw [new]
        exact here
    · exact h
  | tagAnchors node anchors tag =>
    simp only [World.step,tagAnchors]
    split
    · obtain ⟨unique,members⟩ :=
        foldl_tagCarried tag (anchors.map Carried.anchor) w.store.kept h.keys
      refine h.restore _ unique (le_refl _) fun n keeps => .inl ?_
      rw [keeps_iff] at keeps ⊢
      exact ((members _).mp keeps).elim id fun anchor => by simp at anchor
    · exact h
  | forgetWindow nodes => exact h.shrink _ (remove_keys _ _) rfl
  | send item =>
    simp only [World.step]
    split
    · exact h
    rename_i taken
    simp only [Bool.or_eq_true,not_or,Bool.not_eq_true,Bool.not_eq_false'] at taken
    cases item with
    | urgent message => exact h.report [] rfl rfl rfl rfl (by simp) unchanged
    | ordinary entry =>
      cases entry with
      | flushed done => exact h.report [] rfl rfl rfl rfl (by simp) unchanged
      | message m touched =>
        refine h.report touched rfl rfl rfl rfl ?_ ?_
        · intro n inside
          have all := taken.2
          simp only [World.namesIssued,Bool.and_eq_true,all_eq_true] at all
          simpa [Store.issued] using all.1 _ inside
        · intro carried
          simp only [Pending.push,Pending.pushMessage,foldl_countWaiting]
          split <;> simp_all
  | write encoded =>
    simp only [World.step]
    cases popped : w.pending.pop with
    | none => exact h
    | some next => exact h.writeItem encoded popped
  | fail | makeList held => exact h.report [] rfl (by simp [World.step]) rfl rfl (by simp) unchanged
  | read parsed =>
    refine h.report [] ?_ ?_ ?_ ?_ (by simp) ?_ <;>
      simp only [World.step,World.readFrame] <;> split <;> (try split) <;> (try split) <;> simp
  | release list live =>
    simp only [World.step]
    cases w.lists[list]? with
    | none => exact h
    | some list => exact h.releaseFor list live

end Records

end Verbatim.Outbound
