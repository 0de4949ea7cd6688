import Verbatim.Terminal.Reading
import Verbatim.Terminal.Subsequence

namespace Verbatim.Terminal

open Framework Option List

def NewRow.source? : NewRow → Option Nat
  | .kept source _ | .grown source | .rewritten source _ _ => some source
  | _ => none

def OldRow.target? : OldRow → Option Nat
  | .kept target | .rewritten target => some target
  | _ => none

/-- An old row and a row of the read with one text, as their hashes say, or both blank. -/
def Alike (old rows : List Row) (source target : Nat) : Prop :=
  ∃ o n, old[source]?=some o ∧ rows[target]?=some n ∧
    (o.hash=n.hash ∨ o.isBlank=true ∧ n.isBlank=true)

def Grew (old rows : List Row) (source target : Nat) : Prop :=
  ∃ o n, old[source]?=some o ∧ rows[target]?=some n ∧ extendsRow n o=true

/-- What a row of the read is fits what became of the old row it was. -/
inductive Fits (old rows : List Row) (fixed : Int) (source target : Nat) : NewRow → OldRow → Prop
  | kept (moved : Bool) : Alike old rows source target →
      (moved=false ↔ (target : Int)=source+fixed) →
      Fits old rows fixed source target (.kept source moved) (.kept target)
  | grown : Grew old rows source target → (target : Int)=source+fixed →
      Fits old rows fixed source target (.grown source) (.kept target)
  | rewritten (moved alone : Bool) : (moved=false ↔ (target : Int)=source+fixed) →
      Fits old rows fixed source target (.rewritten source moved alone) (.rewritten target)

theorem Fits.source {old rows : List Row} {fixed : Int} {source target : Nat} {kind : NewRow}
    {fate : OldRow} (h : Fits old rows fixed source target kind fate) :
    kind.source?=some source ∧ fate.target?=some target := by
  cases h <;> exact ⟨rfl,rfl⟩

/-- The two tables are one partial matching of old rows with rows of the read. -/
structure Tables.Sound (old rows : List Row) (fixed : Int) (t : Tables) : Prop where
  news : t.new.length=rows.length
  olds : t.old.length=old.length
  inverse : ∀ source target : Nat, t.old[source]?.bind OldRow.target?=some target ↔
    t.new[target]?.bind NewRow.source?=some source
  fits : ∀ (source target : Nat) kind fate, t.new[target]?=some kind → kind.source?=some source →
    t.old[source]?=some fate → Fits old rows fixed source target kind fate

namespace Tables

variable {old rows : List Row} {fixed : Int} {t : Tables} {source target : Nat}

theorem isNew_iff : t.isNew target=true ↔ t.new[target]?=some .new := by
  simp [isNew]

theorem isGone_iff : t.isGone source=true ↔ t.old[source]?=some (.gone false) := by
  simp [isGone]

theorem getElem?_put_new (kind : NewRow) (fate : OldRow) (other : Nat) :
    (t.put source target kind fate).new[other]? =
      if target=other then if target<t.new.length then some kind else none
      else t.new[other]? := by
  simp only [put,getElem?_set]

theorem getElem?_put_old (kind : NewRow) (fate : OldRow) (other : Nat) :
    (t.put source target kind fate).old[other]? =
      if source=other then if source<t.old.length then some fate else none
      else t.old[other]? := by
  simp only [put,getElem?_set]

section

variable (h : t.Sound old rows fixed)

include h

theorem Sound.put {kind : NewRow} {fate : OldRow} (hnew : t.isNew target=true)
    (hgone : t.isGone source=true) (hfits : Fits old rows fixed source target kind fate) :
    (t.put source target kind fate).Sound old rows fixed := by
  rw [isNew_iff] at hnew
  rw [isGone_iff] at hgone
  obtain ⟨hkind,hfate⟩ := hfits.source
  have htarget := (List.getElem?_eq_some_iff.mp hnew).1
  have hsource := (List.getElem?_eq_some_iff.mp hgone).1
  refine ⟨by simpa [Tables.put] using h.news,by simpa [Tables.put] using h.olds,?_,?_⟩
  · intro source' target'
    rw [getElem?_put_new,getElem?_put_old,if_pos htarget,if_pos hsource]
    by_cases hs : source=source'
    · subst hs
      by_cases ht : target=target'
      · subst ht
        simp [hkind,hfate]
      rw [if_pos rfl,if_neg ht,← h.inverse]
      rw [hgone,bind_some,hfate]
      simp [ht,OldRow.target?]
    · by_cases ht : target=target'
      · subst ht
        rw [if_neg hs,if_pos rfl,h.inverse]
        rw [hnew,bind_some,bind_some,hkind]
        simp [hs,NewRow.source?]
      · rw [if_neg hs,if_neg ht]
        exact h.inverse source' target'
  · intro source' target' kind' fate' hkind' hsource' hfate'
    rw [getElem?_put_new,if_pos htarget] at hkind'
    rw [getElem?_put_old,if_pos hsource] at hfate'
    by_cases ht : target=target'
    · subst ht
      rw [if_pos rfl] at hkind'
      cases hkind'
      obtain rfl : source=source' := some.inj (hkind.symm.trans hsource')
      rw [if_pos rfl] at hfate'
      exact some.inj hfate' ▸ hfits
    rw [if_neg ht] at hkind'
    by_cases hs : source=source'
    · subst hs
      have := (h.inverse source target').mpr (by rw [hkind',bind_some,hsource'])
      simp [hgone,OldRow.target?] at this
    · rw [if_neg hs] at hfate'
      exact h.fits source' target' kind' fate' hkind' hsource' hfate'

/-- One entry made by the alignment: a pair of rows neither of which is taken, the old one as
`may` allows, or a new row shown before. -/
inductive Step (old rows : List Row) (fixed : Int) (may : Nat → Prop) : Tables → Tables → Prop
  | put {t : Tables} {source target : Nat} {kind : NewRow} {fate : OldRow} :
      t.isNew target=true → t.isGone source=true → may source →
      Fits old rows fixed source target kind fate →
      Step old rows fixed may t (t.put source target kind fate)
  | shown (t : Tables) (target : Nat) : Step old rows fixed may t (t.markShown target)

/-- What a stretch of the alignment does to the tables. -/
def Turned (old rows : List Row) (fixed : Int) (may : Nat → Prop) : Tables → Tables → Prop :=
  Relation.ReflTransGen (Step old rows fixed may)

/-- Changing what is no part of the matching keeps it. -/
theorem Sound.remark {t' : Tables}
    (hnews : t'.new.length=t.new.length) (holds : t'.old.length=t.old.length)
    (hnew : ∀ target : Nat, t'.new[target]?=t.new[target]? ∨
      t'.new[target]?.bind NewRow.source?=none ∧ t.new[target]?.bind NewRow.source?=none)
    (hold : ∀ source : Nat, t'.old[source]?=t.old[source]? ∨
      t'.old[source]?.bind OldRow.target?=none ∧ t.old[source]?.bind OldRow.target?=none) :
    t'.Sound old rows fixed := by
  have hsame : ∀ target : Nat, t'.new[target]?.bind NewRow.source? =
      t.new[target]?.bind NewRow.source? := by
    intro target
    obtain h | ⟨h,h'⟩ := hnew target
    · rw [h]
    · rw [h,h']
  have hsame' : ∀ source : Nat, t'.old[source]?.bind OldRow.target? =
      t.old[source]?.bind OldRow.target? := by
    intro source
    obtain h | ⟨h,h'⟩ := hold source
    · rw [h]
    · rw [h,h']
  refine ⟨hnews.trans h.news,holds.trans h.olds,?_,?_⟩
  · intro source target
    rw [hsame,hsame']
    exact h.inverse source target
  · intro source target kind fate hkind hsource hfate
    obtain heq | ⟨hnone,-⟩ := hnew target
    · obtain heq' | ⟨hnone',-⟩ := hold source
      · exact h.fits source target kind fate (heq ▸ hkind) hsource (heq' ▸ hfate)
      have := (h.inverse source target).mpr (by rw [← hsame,hkind,bind_some,hsource])
      rw [← hsame',hnone'] at this
      cases this
    · rw [hkind,bind_some,hsource] at hnone
      cases hnone

variable {fate : OldRow}

theorem Sound.of_old (hfate : t.old[source]?=some fate) (htarget : fate.target?=some target) :
    ∃ kind, t.new[target]?=some kind ∧ Fits old rows fixed source target kind fate := by
  have hback := (h.inverse source target).mp (by rw [hfate,bind_some,htarget])
  obtain ⟨kind,hkind,hsource⟩ := bind_eq_some_iff.mp hback
  exact ⟨kind,hkind,h.fits source target kind fate hkind hsource hfate⟩

variable {kind : NewRow}

theorem Sound.of_new (hkind : t.new[target]?=some kind) (hsource : kind.source?=some source) :
    ∃ fate, t.old[source]?=some fate ∧ Fits old rows fixed source target kind fate := by
  have hforth := (h.inverse source target).mpr (by rw [hkind,bind_some,hsource])
  obtain ⟨fate,hfate,-⟩ := bind_eq_some_iff.mp hforth
  exact ⟨fate,hfate,h.fits source target kind fate hkind hsource hfate⟩

theorem Sound.kept_iff : t.old[source]?=some (.kept target) ↔
      (∃ moved, t.new[target]?=some (.kept source moved)) ∨
        t.new[target]?=some (.grown source) := by
  constructor
  · intro hfate
    obtain ⟨kind,hkind,hfits⟩ := h.of_old hfate rfl
    cases hfits with
    | kept moved => exact .inl ⟨moved,hkind⟩
    | grown => exact .inr hkind
  · rintro (⟨moved,hkind⟩ | hkind)
    all_goals
      obtain ⟨fate,hfate,hfits⟩ := h.of_new hkind rfl
      cases hfits
      exact hfate

theorem Sound.rewritten_iff : t.old[source]?=some (.rewritten target) ↔
      ∃ moved alone, t.new[target]?=some (.rewritten source moved alone) := by
  constructor
  · intro hfate
    obtain ⟨kind,hkind,hfits⟩ := h.of_old hfate rfl
    cases hfits with
    | rewritten moved alone => exact ⟨moved,alone,hkind⟩
  · rintro ⟨moved,alone,hkind⟩
    obtain ⟨fate,hfate,hfits⟩ := h.of_new hkind rfl
    cases hfits
    exact hfate

end

theorem getElem?_markShown (target other : Nat) :
    (t.markShown target).new[other]?=t.new[other]? ∨
      t.new[other]?=some .new ∧ (t.markShown target).new[other]?=some .shown := by
  unfold markShown
  split
  next h =>
    rw [isNew_iff] at h
    have hlt := (List.getElem?_eq_some_iff.mp h).1
    simp only [List.getElem?_set]
    by_cases heq : target=other
    · subst heq
      exact .inr ⟨h,by rw [if_pos rfl,if_pos hlt]⟩
    · exact .inl (by rw [if_neg heq])
  · exact .inl rfl

@[simp] theorem markShown_old : (t.markShown target).old=t.old := by
  unfold markShown
  split <;> rfl

theorem length_markShown : (t.markShown target).new.length=t.new.length := by
  unfold markShown
  split
  · simp
  · rfl

variable {may : Nat → Prop} {t' : Tables}

theorem Step.sound (h : Step old rows fixed may t t') (hsound : t.Sound old rows fixed) :
    t'.Sound old rows fixed := by
  cases h with
  | put hnew hgone _ hfits => exact hsound.put hnew hgone hfits
  | shown target =>
    refine hsound.remark length_markShown (by simp) (fun other => ?_) fun _ => .inl (by simp)
    obtain h | ⟨h,h'⟩ := getElem?_markShown target other
    · exact .inl h
    · exact .inr ⟨by rw [h']; rfl,by rw [h]; rfl⟩

section

variable (h : Turned old rows fixed may t t')

include h

theorem Turned.sound (hsound : t.Sound old rows fixed) : t'.Sound old rows fixed := by
  induction h with
  | refl => exact hsound
  | tail _ hstep ih => exact hstep.sound ih

theorem Turned.new_stays (hkind : t.new[target]?=some kind)
    (hne : kind≠.new) : t'.new[target]?=some kind := by
  induction h with
  | refl => exact hkind
  | tail _ hstep ih =>
    cases hstep with
    | put hnew =>
      rw [getElem?_put_new,if_neg,ih]
      rintro rfl
      exact hne (some.inj (ih.symm.trans (isNew_iff.mp hnew)))
    | shown other =>
      obtain h | ⟨h,-⟩ := getElem?_markShown other target
      · exact h.trans ih
      · exact absurd (some.inj (ih.symm.trans h)) hne

theorem Turned.old_same (hnot : ¬ may source) : t'.old[source]?=t.old[source]? := by
  induction h with
  | refl => rfl
  | tail _ hstep ih =>
    cases hstep with
    | put _ _ hmay =>
      rw [getElem?_put_old,if_neg,ih]
      rintro rfl
      exact hnot hmay
    | shown other => rw [markShown_old,ih]

theorem Turned.mono {may' : Nat → Prop}
    (hmay : ∀ source, may source → may' source) : Turned old rows fixed may' t t' := by
  refine Relation.ReflTransGen.mono (fun t t' hstep => ?_) _ _ h
  cases hstep with
  | put hnew hgone hfrom hfits => exact .put hnew hgone (hmay _ hfrom) hfits
  | shown target => exact .shown _ target

end

theorem Turned.put (hnew : t.isNew target=true) (hgone : t.isGone source=true) (hmay : may source)
    {kind : NewRow} {fate : OldRow} (hfits : Fits old rows fixed source target kind fate) :
    Turned old rows fixed may t (t.put source target kind fate) :=
  .single (.put hnew hgone hmay hfits)

theorem Turned.foldl {α : Type*} {f : Tables → α → Tables} {items : List α}
    (hstep : ∀ item∈items, ∀ t, Turned old rows fixed may t (f t item)) :
    Turned old rows fixed may t (items.foldl f t) :=
  foldl_invariant (Turned old rows fixed may t) .refl
    fun item hitem t ht => ht.trans (hstep item hitem t)

theorem isGone_put_of_ne {other : Nat} (hne : source≠other) :
    (t.put source target kind fate).isGone other=t.isGone other := by
  simp [isGone,getElem?_put_old,hne]

theorem isNew_put_of_ne {other : Nat} (hne : target≠other) :
    (t.put source target kind fate).isNew other=t.isNew other := by
  simp [isNew,getElem?_put_new,hne]

theorem Turned.putAll {pairs : Pairs} {kind : Nat × Nat → NewRow}
    {fate : Nat × Nat → OldRow} (hsorted : Parallel pairs)
    (hfree : ∀ p∈pairs, t.isNew p.2=true ∧ t.isGone p.1=true)
    (hfits : ∀ p∈pairs, may p.1 ∧ Fits old rows fixed p.1 p.2 (kind p) (fate p)) :
    Turned old rows fixed may t (pairs.foldl (fun t p => t.put p.1 p.2 (kind p) (fate p)) t) := by
  induction pairs generalizing t with
  | nil => exact .refl
  | cons p pairs ih =>
    obtain ⟨hless,hsorted⟩ := pairwise_cons.mp hsorted
    obtain ⟨hmay,hp⟩ := hfits p (by simp)
    obtain ⟨hnew,hgone⟩ := hfree p (by simp)
    refine (Turned.put hnew hgone hmay hp).trans (ih hsorted (fun q hq => ?_)
      fun q hq => hfits q (mem_cons_of_mem _ hq))
    obtain ⟨hsource,htarget⟩ := hless q hq
    rw [isNew_put_of_ne htarget.ne,isGone_put_of_ne hsource.ne]
    exact hfree q (mem_cons_of_mem _ hq)

section PutAll

variable {pairs : Pairs} {kind : Nat × Nat → NewRow} {fate : Nat × Nat → OldRow}

theorem putAll_new_same (h : ∀ p∈pairs, p.2≠target) :
    (pairs.foldl (fun t p => t.put p.1 p.2 (kind p) (fate p)) t).new[target]?=t.new[target]? := by
  refine foldl_invariant (fun s : Tables => s.new[target]?=t.new[target]?) rfl ?_
  intro p hp s hs
  rw [getElem?_put_new,if_neg (h p hp),hs]

theorem putAll_old_same (h : ∀ p∈pairs, p.1≠source) :
    (pairs.foldl (fun t p => t.put p.1 p.2 (kind p) (fate p)) t).old[source]?=t.old[source]? := by
  refine foldl_invariant (fun s : Tables => s.old[source]?=t.old[source]?) rfl ?_
  intro p hp s hs
  rw [getElem?_put_old,if_neg (h p hp),hs]

theorem putAll_new_mem (hsorted : Parallel pairs)
    {p : Nat × Nat} (hp : p∈pairs) (hlt : p.2<t.new.length) :
    (pairs.foldl (fun t p => t.put p.1 p.2 (kind p) (fate p)) t).new[p.2]?=some (kind p) := by
  induction pairs generalizing t with
  | nil => cases hp
  | cons q pairs ih =>
    obtain ⟨hless,hsorted⟩ := pairwise_cons.mp hsorted
    obtain rfl | hp := mem_cons.mp hp
    · rw [foldl_cons,putAll_new_same fun q hq => (hless q hq).2.ne',getElem?_put_new,
        if_pos rfl,if_pos hlt]
    · exact ih hsorted hp (by simpa [Tables.put] using hlt)

end PutAll

end Tables

end Verbatim.Terminal
